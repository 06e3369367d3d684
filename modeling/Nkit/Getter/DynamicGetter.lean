import Nkit.Base.Collect
import Nkit.Path.Printing
import Nkit.Dynamic.Ordering

/-! Options read from a value (`dynamic_getter.h`).  A getter and its sub-getters share one list of
errors, which is passed along; `out` stands for `*out`. -/

namespace Nkit
open OrderedMap Collect

/-- `PathItem::Get` on a value. -/
def PathItem.find (vars : Variables) (item : PathItem) (root : DynTree) : Option DynTree :=
  match item with
  | key k => root.getKey k
  | keyPtr p => root.getKey (vars.keys p)
  | index i => root.getByIndex i
  | indexPtr p => root.getByIndex (vars.indices p)
  | undef => none

/-- `DynamicPath::Get` on a value. -/
def DynamicPath.find (vars : Variables) (p : DynamicPath) (root : DynTree) : Option DynTree :=
  p.pathItems.foldlM (fun current item => item.find vars current) root

/-- `operator /` with another path. -/
def DynamicPath.append (p path : DynamicPath) : DynamicPath :=
  { p with pathItems := p.pathItems ++ path.pathItems }

section
variable {m : Store} {P : Set ℕ} {d : Dyn} {t : DynTree}

theorem Shows.findItem (vars : Variables) (h : Shows m P d t) (item : PathItem) :
    Option.Rel (Shows m P) (item.get vars m d) (item.find vars t) := by
  cases item with
  | key | keyPtr => exact h.getKey _
  | index | indexPtr => exact h.getByIndex _
  | undef => exact .none

/-- The pointer that `Get` finds leads to the value that is found. -/
theorem Shows.find (vars : Variables) (h : Shows m P d t) (p : DynamicPath) :
    Option.Rel (Shows m P) (p.get vars m d) (p.find vars t) :=
  Runs.rel_foldlM (fun _ _ item item' hshows (hitem : item = item') => hitem ▸ hshows.findItem vars
    item)
    (List.forall₂_refl p.pathItems) h

end

namespace DynTree

/-- `OP_GET_BOOL`. -/
def toBool : DynTree → Bool
  | plain .undef _ | plain .none _ => false
  | plain .float w => !Double.eq w 0
  | plain _ w => w != 0
  | string s | oid s => !s.isEmpty
  | list items => !items.isEmpty
  | dict entries => !entries.isEmpty
  | table _ rows => !rows.isEmpty

def isString : DynTree → Bool
  | string _ => true
  | _ => false

/-- `bool & operator <<`. -/
def readBool (lib : CLib) : DynTree → Bool
  | string s => Tools.boolCast s
  | d => d.getInt lib != 0

end DynTree

abbrev Errors := List Bytes

/-- `dynamicPath` is what `dynamic_path()` computes from the parents. -/
structure DynamicGetter where
  path : Bytes
  delimiter : UInt8
  dynamicPath : DynamicPath
  data : DynTree

/-- `T::Create`: the object, or a null pointer, and the errors after it. -/
abbrev Create (T : Type) := DynamicGetter → Errors → Option T × Errors

/-- What the overloads of `Get` write to. -/
inductive Output : Type → Type 1 where
  | string : Output Bytes
  /-- Numbers, `bool` and `const Dynamic *`. -/
  | scalar {A : Type} (convert : DynTree → A) : Output A
  | getter : Output DynamicGetter
  /-- `std::vector<T>` and `std::list<T>`. -/
  | sequence {T : Type} (saveTo : DynTree → T) : Output (List T)
  /-- `std::set<T>`, a map without values. -/
  | set {T : Type} (lt : T → T → Bool) (saveTo : DynTree → T) : Output (List (T × Unit))
  | shared {T : Type} (create : Create T) : Output (Option T)
  /-- `std::vector` and `std::list` of `NKIT_SHARED_PTR(T)`. -/
  | sharedSequence {T : Type} (create : Create T) : Output (List (Option T))
  | sharedMap {K T : Type} (lt : K → K → Bool) (readKey : Bytes → K) (create : Create T) :
      Output (List (K × Option T))
  | map {K V : Type} (lt : K → K → Bool) (readKey : Bytes → K) (read : DynTree → V) :
      Output (List (K × V))

namespace Output
variable (lib : CLib)

def int16 : Output (BitVec 16) := scalar fun v => BitVec.ofInt 16 (v.getInt lib)
def uint16 : Output (BitVec 16) := scalar fun v => BitVec.ofNat 16 (v.getUInt lib)
def int32 : Output (BitVec 32) := scalar fun v => BitVec.ofInt 32 (v.getInt lib)
def uint32 : Output (BitVec 32) := scalar fun v => BitVec.ofNat 32 (v.getUInt lib)
def int64 : Output (BitVec 64) := scalar fun v => BitVec.ofInt 64 (v.getInt lib)
def uint64 : Output (BitVec 64) := scalar fun v => BitVec.ofNat 64 (v.getUInt lib)
def double : Output (BitVec 64) := scalar fun v => v.getDouble lib
def bool : Output Bool := scalar fun v => v.readBool lib
def dynamic : Output DynTree := scalar id
def stringVector : Output (List Bytes) := sequence fun v => v.getString lib
def stringSet : Output (List (Bytes × Unit)) := set bytesLt fun v => v.getString lib
def stringMap : Output (List (Bytes × Bytes)) := map bytesLt id fun v => v.getString lib

end Output

/-- The path of a call: a text, or an index that stands for `[%]`. -/
inductive SubPath where
  | text (path : Bytes)
  | index (i : ℕ)
deriving DecidableEq, Repr

def SubPath.toPath (delimiter : UInt8) : SubPath → DynamicPath
  | text path => DynamicPath.create delimiter path []
  | index i => DynamicPath.create delimiter (ascii "[%]") [.index i]

def SubPath.rejected (delimiter : UInt8) : SubPath → Bool
  | text path => !(DynamicPath.create delimiter path []).ok
  | index _ => false

namespace DynamicGetter
variable (vars : Variables)

def couldNotFind (dynamicPath : DynamicPath) (path : Bytes) : Bytes :=
  ascii "Could not find option '" ++ dynamicPath.print vars ++ ascii "' in location '" ++ path ++
    ascii "'"

def mustBe (kind : String) (dynamicPath : DynamicPath) (path : Bytes) : Bytes :=
  ascii "Value of option '" ++ dynamicPath.print vars ++ ascii "' in location '" ++ path ++
    ascii "' must be " ++ ascii kind

def wrongPath (dynamicPath : DynamicPath) (error : Bytes) : Bytes :=
  ascii "Wrong path '" ++ dynamicPath.print vars ++ ascii "': " ++ error

def below (parent : DynamicGetter) (subPath : DynamicPath) (data : DynTree) : DynamicGetter :=
  ⟨parent.path, parent.delimiter, parent.dynamicPath.append subPath, data⟩

/-- `DynamicGetter(parent, sub_path)`. -/
def sub (parent : DynamicGetter) (subPath : DynamicPath) (errors : Errors) :
    DynamicGetter × Errors :=
  match subPath.find vars parent.data with
  | some data => (parent.below subPath data, errors)
  | none =>
    (parent.below subPath .undef,
      couldNotFind vars (parent.dynamicPath.append subPath) parent.path :: errors)

/-- `GetSubDynamic` for a string. -/
def getSubString (lib : CLib) (data : DynTree) (subPath : DynamicPath) : Bytes × Bool :=
  match subPath.find vars data with
  | none => ([], false)
  | some v => if !v.isString && !v.toBool then ([], false) else (v.getString lib, true)

/-- `GetSubDynamic` for the other scalars. -/
def getSubScalar {A : Type} (convert : DynTree → A) (data : DynTree) (subPath : DynamicPath)
    (out : A) : A × Bool :=
  match subPath.find vars data with
  | none => (out, false)
  | some v => (convert v, true)

/-- `Get` for a shared pointer, once the getter is `ok()`. -/
def getShared {T : Type} (create : Create T) (g : DynamicGetter) (subPath : DynamicPath)
    (out : Option T) (errors : Errors) :
    Option T × Errors :=
  match g.sub vars subPath errors with
  | (subLoader, []) =>
    match create subLoader [] with
    | (tmp, []) => (tmp, [])
    | (_, errors) => (out, errors)
  | (_, errors) => (out, errors)

def checked {A : Type} (g : DynamicGetter) (subPath : SubPath) (out : A) (errors : Errors)
    (get : DynamicPath → A → Errors → A × Errors) : A × Errors :=
  if errors ≠ [] then (out, errors)
  else
    let path := subPath.toPath g.delimiter
    if subPath.rejected g.delimiter
      then (out, wrongPath vars (g.dynamicPath.append path) path.error :: errors)
    else get path out errors

def getElement {T : Type} (create : Create T) (g : DynamicGetter) (subPath : SubPath)
    (errors : Errors) : Option T × Errors :=
  g.checked vars subPath none errors (g.getShared vars create)

/-- The private overloads of `Get`. -/
def getPath (lib : CLib) {A : Type} (output : Output A) (g : DynamicGetter) (subPath : DynamicPath)
    (out : A) (errors : Errors) :
    A × Errors :=
  let notFound := couldNotFind vars (g.dynamicPath.append subPath) g.path
  let mustBe (kind : String) := mustBe vars kind (g.dynamicPath.append subPath) g.path
  match output with
  | .string =>
    match getSubString vars lib g.data subPath with
    | (out, true) => (out, errors)
    | (out, false) => (out, notFound :: errors)
  | .scalar convert =>
    match getSubScalar vars convert g.data subPath out with
    | (out, true) => (out, errors)
    | (out, false) => (out, notFound :: errors)
  | .getter =>
    match g.sub vars subPath errors with
    | (result, []) => (result, [])
    | (_, errors) => (out, notFound :: errors)
  | .sequence saveTo =>
    let (subLoader, errors) := g.sub vars subPath errors
    match subLoader.data with
    | .list items => (items.map saveTo, errors)
    | _ => (out, mustBe "LIST" :: errors)
  | .set lt saveTo =>
    let (subLoader, errors) := g.sub vars subPath errors
    match subLoader.data with
    | .list items => (items.foldl (fun s item => update lt (saveTo item) () id s) [], errors)
    | _ => (out, mustBe "LIST" :: errors)
  | .shared create => g.getShared vars create subPath out errors
  | .sharedSequence create =>
    let (subLoader, errors) := g.sub vars subPath errors
    match subLoader.data with
    | .list items =>
      collect (fun counter => subLoader.getElement vars create (.index counter))
        (fun tmp _ o => tmp ++ [o])
        (List.range items.length) [] errors
    | _ => (out, mustBe "LIST" :: errors)
  | .sharedMap lt readKey create =>
    let (subLoader, errors) := g.sub vars subPath errors
    match subLoader.data with
    | .dict entries =>
      collect (fun pair => subLoader.getElement vars create (.text (subLoader.delimiter :: pair.1)))
        (fun tmp pair o => update lt (readKey pair.1) none (fun _ => o) tmp) entries [] errors
    | _ => (out, mustBe "DICT" :: errors)
  | .map lt readKey read =>
    let (subLoader, errors) := g.sub vars subPath errors
    -- the error is set and `*out << data` runs all the same
    match subLoader.data with
    | .dict entries =>
      (entries.foldl (fun m pair => update lt (readKey pair.1) (read pair.2) (fun _ => read pair.2)
        m) [], errors)
    | _ => ([], mustBe "DICT" :: errors)

/-- `Get` without a default. -/
def get (lib : CLib) {A : Type} (output : Output A) (g : DynamicGetter) (subPath : SubPath)
    (out : A) (errors : Errors) :
    A × Errors :=
  g.checked vars subPath out errors (g.getPath vars lib output)

end DynamicGetter

end Nkit
