import Nkit.Base.Traverse
import Nkit.Getter.ObjectMaps
import Nkit.Json.RoundTrip

/-! Classes of options (`NKIT_OPTIONS_BEGIN`, `NKIT_OPTION`, `NKIT_OPTION_DEFAULT`,
`NKIT_OPTIONS_END`): their objects are created from values and saved as values. -/

namespace Nkit
open OrderedMap Collect

inductive IntType where
  | int8 | int16 | int32 | int64 | uint8 | uint16 | uint32 | uint64
deriving DecidableEq, Repr

namespace IntType

def width : IntType → ℕ
  | int8 | uint8 => 8
  | int16 | uint16 => 16
  | int32 | uint32 => 32
  | int64 | uint64 => 64

def signed : IntType → Bool
  | int8 | int16 | int32 | int64 => true
  | uint8 | uint16 | uint32 | uint64 => false

/-- The cast from `GetSignedInteger`, respectively `GetUnsignedInteger`. -/
def read (lib : CLib) (type : IntType) (v : DynTree) : BitVec type.width :=
  if type.signed then BitVec.ofInt _ (v.getInt lib) else BitVec.ofNat _ (v.getUInt lib)

/-- The constructors of `Dynamic`, which are all of an INTEGER. -/
def toDynamic (type : IntType) (w : BitVec type.width) : DynTree :=
  .plain .integer (if type.signed then w.signExtend 64 else w.setWidth 64)

def lt (type : IntType) (x y : BitVec type.width) : Bool := if type.signed then x.slt y else x.ult y

end IntType

inductive ItemType : Type → Type 1 where
  | string : ItemType Bytes
  | int (type : IntType) : ItemType (BitVec type.width)

namespace ItemType
variable {A : Type}

/-- `SaveTo`. -/
def read (lib : CLib) : ItemType A → DynTree → A
  | string => fun v => v.getString lib
  | int type => type.read lib

def toDynamic : ItemType A → A → DynTree
  | string => .string
  | int type => type.toDynamic

/-- The order of a `std::set`. -/
def lt : ItemType A → A → A → Bool
  | string => bytesLt
  | int type => type.lt

end ItemType

inductive ScalarType : Type → Type 1 where
  | item {A : Type} (type : ItemType A) : ScalarType A
  | bool : ScalarType Bool
  | double : ScalarType (BitVec 64)

namespace ScalarType
variable {A : Type}

/-- `operator <<`. -/
def read (lib : CLib) : ScalarType A → DynTree → A
  | item type => type.read lib
  | bool => fun v => v.readBool lib
  | double => fun v => v.getDouble lib

def toDynamic : ScalarType A → A → DynTree
  | item type => type.toDynamic
  | bool => fun b => .plain .bool (if b then 1 else 0)
  | double => .plain .float

def initial : ScalarType A → A
  | item .string => []
  | item (.int _) => 0
  | bool => false
  | double => 0

/-- The overload of `GetSubDynamic`. -/
def output (lib : CLib) : ScalarType A → Output A
  | item .string => .string
  | item (.int type) => .scalar (type.read lib)
  | bool => .bool lib
  | double => .double lib

end ScalarType

mutual

inductive OptionType : Type → Type 1 where
  | scalar {A : Type} (type : ScalarType A) : OptionType A
  /-- `std::vector` and `std::list`. -/
  | sequence {A : Type} (item : ItemType A) : OptionType (List A)
  | set {A : Type} (item : ItemType A) : OptionType (List (A × Unit))
  | map {A : Type} (value : ScalarType A) : OptionType (List (Bytes × A))
  | shared {T : Type} (options : OptionsClass T) : OptionType (Option T)
  | sharedSequence {T : Type} (options : OptionsClass T) : OptionType (List (Option T))
  | sharedMap {T : Type} (options : OptionsClass T) : OptionType (List (Bytes × Option T))

/-- The options of a class, the last one outside; `T` is what its objects hold. -/
inductive OptionsClass : Type → Type 1 where
  | begin : OptionsClass Unit
  | option {A T : Type} (base : OptionsClass T) (type : OptionType A) (option : Bytes)
      (default : Option A) :
      OptionsClass (T × A)

end

def OptionType.initial {A : Type} : OptionType A → A
  | .scalar type => type.initial
  | .sequence _ | .set _ | .map _ | .sharedSequence _ | .sharedMap _ => []
  | .shared _ => none

/-- `Get` for an option, with its default if it has one. -/
def DynamicGetter.getOption (vars : Variables) {A : Type} (default : Option A) (initial : A)
    (g : DynamicGetter) (option : Bytes) (get : DynamicPath → A → Errors → A × Errors)
    (errors : Errors) : A × Errors :=
  match default with
  | none => g.checked vars (.text option) initial errors get
  | some d => g.checked vars (.text option) d errors fun path out errors =>
    match get path out errors with
    | (v, []) => (v, [])
    | (_, _ :: _) => (d, [])

/-- `Create` after `Init`: a null pointer if something is wrong. -/
def created {T : Type} : T × Errors → Option T × Errors
  | (object, []) => (some object, [])
  | (_, errors) => (none, errors)

section
variable (vars : Variables) (lib : CLib)

mutual

/-- The overload of `Get` for the type. -/
def OptionType.getPath {A : Type} (type : OptionType A) (g : DynamicGetter) (path : DynamicPath)
    (out : A) (errors : Errors) :
    A × Errors :=
  match type with
  | .scalar type => g.getPath vars lib (type.output lib) path out errors
  | .sequence item => g.getPath vars lib (.sequence (item.read lib)) path out errors
  | .set item => g.getPath vars lib (.set item.lt (item.read lib)) path out errors
  | .map value => g.getPath vars lib (.map bytesLt id (value.read lib)) path out errors
  | .shared options =>
    g.getPath vars lib (.shared fun g errors => created (options.init g errors)) path out errors
  | .sharedSequence options =>
    g.getPath vars lib (.sharedSequence fun g errors => created (options.init g errors)) path out
      errors
  | .sharedMap options =>
    g.getPath vars lib (.sharedMap bytesLt id fun g errors => created (options.init g errors)) path
      out errors
termination_by structural type

/-- `Init`: an option is read before those above it. -/
def OptionsClass.init {T : Type} (options : OptionsClass T) (g : DynamicGetter) (errors : Errors) :
    T × Errors :=
  match options with
  | .begin => ((), errors)
  | .option base type option default =>
    let (v, errors) := g.getOption vars default type.initial option (type.getPath g) errors
    let (object, errors) := base.init g errors
    ((object, v), errors)
termination_by structural options

end

/-- `Create` with a getter. -/
def OptionsClass.create {T : Type} (options : OptionsClass T) : Create T :=
  fun g errors => created (options.init vars lib g errors)

end

/-- The getter that `Create` makes for a value. -/
def DynamicGetter.ofData (data : DynTree) : DynamicGetter := ⟨ascii "-", 46, ⟨46, [], []⟩, data⟩

/-- The entries of a `std::map`, or of `Dynamic::operator []`, one after the other. -/
def putAll (entries : List (Bytes × DynTree)) : List (Bytes × DynTree) :=
  entries.foldl (fun dict e => update bytesLt e.1 .undef (fun _ => e.2) dict) []

mutual

/-- `VarToDynamic`; `none` is a use of a null pointer. -/
def OptionType.save {A : Type} (type : OptionType A) (value : A) : Option DynTree :=
  match type with
  | .scalar type => some (type.toDynamic value)
  | .sequence item => some (.list (value.map item.toDynamic))
  | .set item => some (.list (value.map fun e => item.toDynamic e.1))
  | .map type => some (.dict (putAll (value.map fun e => (e.1, type.toDynamic e.2))))
  | .shared options =>
    match value with
    | none => some (.dict [])
    | some object => (options.saveEntries object []).map .dict
  | .sharedSequence options => do
    let items ← value.mapM fun o => o.bind fun object =>
      (options.saveEntries object []).map DynTree.dict
    some (.list items)
  | .sharedMap options => do
    let items ← value.mapM fun e => e.2.bind fun object =>
      (options.saveEntries object []).map fun dict => (e.1, DynTree.dict dict)
    some (.dict (putAll items))
termination_by structural type

/-- `SaveToDynamic` of the options, into the entries of a dict. -/
def OptionsClass.saveEntries {T : Type} (options : OptionsClass T) (object : T)
    (dict : List (Bytes × DynTree)) :
    Option (List (Bytes × DynTree)) :=
  match options with
  | .begin => some dict
  | .option base type option _ => do
    let tmp ← type.save object.2
    base.saveEntries object.1 (update bytesLt option .undef (fun _ => tmp) dict)
termination_by structural options

end

/-- `SaveToDynamic`. -/
def OptionsClass.saveToDynamic {T : Type} (options : OptionsClass T) (object : T) :
    Option DynTree :=
  (options.saveEntries object []).map .dict

def OptionsClass.names {T : Type} : OptionsClass T → List Bytes
  | .begin => []
  | .option base _ name _ => name :: base.names

mutual

def OptionType.WellNamed (delimiter : UInt8) {A : Type} (type : OptionType A) : Prop :=
  match type with
  | .scalar _ | .sequence _ | .set _ | .map _ => True
  | .shared options | .sharedSequence options | .sharedMap options => options.WellNamed delimiter
termination_by structural type

/-- The options of a class, and those of the classes in it, have different names that are no longer
paths. -/
def OptionsClass.WellNamed (delimiter : UInt8) {T : Type} (options : OptionsClass T) : Prop :=
  match options with
  | .begin => True
  | .option base type option _ =>
    base.WellNamed delimiter ∧ option ∉ base.names ∧ IsName delimiter option ∧
      type.WellNamed delimiter
termination_by structural options

end

mutual

def OptionType.Complete (delimiter : UInt8) {A : Type} (type : OptionType A) (value : A) : Prop :=
  match type with
  | .scalar _ | .sequence _ => True
  | .set item => Sorted item.lt value
  | .map _ => Sorted bytesLt value
  | .shared options => ∃ object, value = some object ∧ options.Complete delimiter object
  | .sharedSequence options =>
    ∀ o ∈ value, ∃ object, o = some object ∧ options.Complete delimiter object
  | .sharedMap options => Sorted bytesLt value ∧
      ∀ e ∈ value, IsName delimiter e.1 ∧ ∃ object, e.2 = some object ∧
        options.Complete delimiter object
termination_by structural type

/-- No pointer in the object is null, and the keys of its maps of pointers are no longer paths. -/
def OptionsClass.Complete (delimiter : UInt8) {T : Type} (options : OptionsClass T) (object : T) :
    Prop :=
  match options with
  | .begin => True
  | .option base type _ _ => base.Complete delimiter object.1 ∧ type.Complete delimiter object.2
termination_by structural options

end

namespace IntType

theorem width_le (type : IntType) : type.width ≤ 64 := by
  cases type <;> decide

theorem read_toDynamic (lib : CLib) (type : IntType) (w : BitVec type.width) :
    type.read lib (type.toDynamic w) = w := by
  rw [read, toDynamic]
  cases type.signed with
  | true =>
    show BitVec.ofInt _ (w.signExtend 64).toInt = w
    rw [BitVec.toInt_signExtend_of_le type.width_le, BitVec.ofInt_toInt]
  | false =>
    show BitVec.ofNat _ (w.setWidth 64).toNat = w
    rw [BitVec.toNat_setWidth_of_le type.width_le, BitVec.ofNat_toNat, BitVec.setWidth_eq]

end IntType

theorem ItemType.read_toDynamic (lib : CLib) {A : Type} (type : ItemType A) (value : A) :
    type.read lib (type.toDynamic value) = value := by
  cases type with
  | string => rfl
  | int type => exact type.read_toDynamic lib value

theorem ScalarType.read_toDynamic (lib : CLib) {A : Type} (type : ScalarType A) (value : A) :
    type.read lib (type.toDynamic value) = value := by
  cases type with
  | item type => exact type.read_toDynamic lib value
  | bool => cases value <;> rfl
  | double => rfl

section
variable {vars : Variables} {lib : CLib} {delimiter : UInt8} {A T : Type} {g : DynamicGetter}
  {path : DynamicPath} {tree : DynTree} {out : A}

theorem toPath_name {name : Bytes} (hname : IsName delimiter name) :
    (SubPath.text name).toPath delimiter = ⟨delimiter, [.key name], []⟩ ∧
      (SubPath.text name).rejected delimiter = false := by
  have hmem : delimiter ∉ name := by
    intro h
    have hno := hname.chars delimiter h
    simp [isKeyChar] at hno
  have hset : setPath delimiter name [] = .ok [.key name] := by
    obtain ⟨c, rest, rfl⟩ := List.exists_cons_of_ne_nil hname.ne
    have hlone : c :: rest ≠ [delimiter] := by
      rintro h
      rw [h] at hmem
      exact hmem (List.mem_singleton_self _)
    obtain ⟨h₁, h₂, -, -⟩ := hname.head_ne
    rw [setPath, if_neg hlone]
    exact (makePath_of_takes (fun h => absurd h hmem) rfl (.inr (.inr ⟨h₁, h₂, rfl, rfl⟩))
      hname.ne).mpr
      ⟨false, takes_name hname⟩
  have hpath := DynamicPath.create_of_set hset
  refine ⟨hpath, ?_⟩
  rw [SubPath.rejected, hpath]
  rfl

theorem toPath_index (hd : IsDelimiter delimiter) (i : ℕ) :
    (SubPath.index i).toPath delimiter = ⟨delimiter, [.index i], []⟩ := by
  have htakes : Takes delimiter .bracket (37 :: 93 :: []) [.index i] [.index i] false :=
    .indexParam rfl (.closeBracket (.inr rfl) (.stop .closed []))
  exact DynamicPath.create_of_set
    ((setPath_iff hd _).mpr ⟨false, .bracket (List.cons_ne_nil _ _) htakes⟩)

theorem DynamicGetter.getOption_read {default : Option A} {initial v : A} {name : Bytes}
    {get : DynamicPath → A → Errors → A × Errors} (hname : IsName g.delimiter name)
    (hget : ∀ out, get ⟨g.delimiter, [.key name], []⟩ out [] = (v, [])) :
    g.getOption vars default initial name get [] = (v, []) := by
  obtain ⟨hpath, haccepted⟩ := toPath_name hname
  cases default with
  | none =>
    rw [getOption, checked, if_neg (not_not.mpr rfl)]
    simp only [hpath, haccepted, Bool.false_eq_true, if_false, hget]
  | some d =>
    simp only [getOption, checked, if_neg (not_not.mpr rfl), hpath, haccepted, Bool.false_eq_true,
      if_false, hget]

theorem ScalarType.getPath_read (type : ScalarType A) {value : A}
    (hfind : path.find vars g.data = some (type.toDynamic value)) :
    g.getPath vars lib (type.output lib) path out [] = (value, []) := by
  have hread := type.read_toDynamic lib value
  cases type with
  | item type =>
    cases type with
    | string =>
      simp only [output, DynamicGetter.getPath, DynamicGetter.getSubString, hfind]
      rfl
    | int type =>
      simp only [output, DynamicGetter.getPath, DynamicGetter.getSubScalar, hfind]
      exact congrArg (·, []) hread
  | bool =>
    simp only [output, Output.bool, DynamicGetter.getPath, DynamicGetter.getSubScalar, hfind]
    exact congrArg (·, []) hread
  | double =>
    simp only [output, Output.double, DynamicGetter.getPath, DynamicGetter.getSubScalar, hfind]
    exact congrArg (·, []) hread

theorem DynamicGetter.getPath_sequence (item : ItemType A) {value out : List A}
    (hfind : path.find vars g.data = some (.list (value.map item.toDynamic))) :
    g.getPath vars lib (.sequence (item.read lib)) path out [] = (value, []) := by
  simp only [getPath, sub_found hfind, below, List.map_map, Function.comp_def, item.read_toDynamic,
    List.map_id']

theorem DynamicGetter.getPath_set (item : ItemType A) {value out : List (A × Unit)}
    (hsorted : Sorted item.lt value)
    (hfind : path.find vars g.data = some (.list (value.map fun e => item.toDynamic e.1))) :
    g.getPath vars lib (.set item.lt (item.read lib)) path out [] = (value, []) := by
  simp only [getPath, sub_found hfind, below, List.foldl_map, item.read_toDynamic]
  have hfold : value.foldl (fun s e => update item.lt e.1 () id s) [] = [] ++ value.map fun e =>
      (e.1, id ()) :=
    foldl_update (fun e : A × Unit => e.1) (fun _ => ()) (fun _ => id) (by simpa using hsorted)
  rw [hfold]
  simp

theorem putAll_sorted {entries : List (Bytes × DynTree)} (h : Sorted bytesLt entries) :
    putAll entries = entries := by
  have hfold : entries.foldl (fun dict e => update bytesLt e.1 .undef (fun _ => e.2) dict) [] =
      [] ++ entries.map fun e => (e.1, e.2) :=
    foldl_update (fun e : Bytes × DynTree => e.1) (fun _ => .undef) (fun e _ => e.2)
      (by simpa using h)
  exact hfold.trans (by simp)

theorem sorted_map {B : Type} {value : List (Bytes × A)} (hsorted : Sorted bytesLt value)
    (f : Bytes × A → B) :
    Sorted bytesLt (value.map fun e => (e.1, f e)) := List.pairwise_map.mpr hsorted

theorem DynamicGetter.getPath_map (type : ScalarType A) {value out : List (Bytes × A)}
    (hsorted : Sorted bytesLt value)
    (hfind : path.find vars g.data =
      some (.dict (putAll (value.map fun e => (e.1, type.toDynamic e.2))))) :
    g.getPath vars lib (.map bytesLt id (type.read lib)) path out [] = (value, []) := by
  rw [putAll_sorted (sorted_map hsorted _)] at hfind
  simp only [getPath, sub_found hfind, below, List.foldl_map, type.read_toDynamic, id]
  have hfold : value.foldl (fun m e => update bytesLt e.1 e.2 (fun _ => e.2) m) [] =
      [] ++ value.map fun e => (e.1, e.2) :=
    foldl_update (fun e : Bytes × A => e.1) (fun e => e.2) (fun e _ => e.2) (by simpa using hsorted)
  rw [hfold]
  simp

/-- What is created from a value below the getter. -/
def CreatedFrom (delimiter : UInt8) (create : Create T) (o : Option T) (data : DynTree) : Prop :=
  ∀ getter : DynamicGetter, getter.data = data → getter.delimiter = delimiter →
    create getter [] = (o, [])

theorem DynamicGetter.getShared_created {create : Create T} {o out : Option T} {data : DynTree}
    (hfind : path.find vars g.data = some data) (hcreate : CreatedFrom g.delimiter create o data) :
    g.getShared vars create path out [] = (o, []) := by
  have hobject := hcreate (g.below path data) rfl rfl
  simp only [getShared, sub_found hfind, hobject]

theorem DynamicGetter.getPath_sharedSequence {create : Create T} {value out : List (Option T)}
    {items : List DynTree} (hd : IsDelimiter g.delimiter)
    (hfind : path.find vars g.data = some (.list items))
    (hcreate : List.Forall₂ (CreatedFrom g.delimiter create) value items) :
    g.getPath vars lib (.sharedSequence create) path out [] = (value, []) := by
  have hbuilds :
    Builds (fun counter => (g.below path (.list items)).getElement vars create (.index counter))
      (List.range items.length) value := by
    refine List.forall₂_iff_get.mpr ⟨by simpa using hcreate.length_eq.symm, fun i hi hi' => ?_⟩
    rw [List.length_range] at hi
    have hget : (⟨g.delimiter, [.index i], []⟩ : DynamicPath).find vars (.list items) =
        some items[i] := by
      show (items[i]?).bind _ = _
      rw [List.getElem?_eq_getElem hi]
      rfl
    simp only [List.get_eq_getElem, List.getElem_range]
    rw [getElement, checked, if_neg (not_not.mpr rfl)]
    show getShared vars create (g.below path (.list items)) ((SubPath.index i).toPath g.delimiter)
      none [] = _
    rw [toPath_index hd]
    exact getShared_created hget (hcreate.get hi' hi)
  simp only [getPath, sub_found hfind, below]
  refine (collect_of_builds hbuilds []).trans ?_
  rw [fill_snoc _ _ hbuilds.length_eq, List.nil_append]

theorem DynamicGetter.getPath_sharedMap {create : Create T} {value out : List (Bytes × Option T)}
    {entries : List (Bytes × DynTree)} (hsorted : Sorted bytesLt entries)
    (hkeys : ∀ e ∈ value, IsName g.delimiter e.1)
    (hfind : path.find vars g.data = some (.dict entries))
    (hcreate : List.Forall₂ (fun e e' => e.1 = e'.1 ∧ CreatedFrom g.delimiter create e.2 e'.2) value
      entries) :
    g.getPath vars lib (.sharedMap bytesLt id create) path out [] = (value, []) := by
  have hbuilds : Builds (g.dictElement vars create path entries) entries (value.map Prod.snd) := by
    rw [Builds, List.forall₂_map_right_iff]
    refine List.forall₂_iff_get.mpr ⟨hcreate.length_eq.symm, fun i hi hi' => ?_⟩
    obtain ⟨hkey, hcreated⟩ := hcreate.get hi' hi
    have hname := hkeys _ (List.get_mem value ⟨i, hi'⟩)
    rw [hkey] at hname
    have hmem : g.delimiter ∉ (entries.get ⟨i, hi⟩).1 := fun h => by
      have hno := hname.chars _ h
      simp [isKeyChar] at hno
    have hvalue : get? bytesLt (entries.get ⟨i, hi⟩).1 entries = some (entries.get ⟨i, hi⟩).2 :=
      get?_eq_some_of_mem bytesLt_strictWeak hsorted (List.get_mem entries ⟨i, hi⟩)
    refine (dictElement_iff hname.ne hmem).mpr ⟨_, false, _, takes_name hname, ?_,
      hcreated _ rfl rfl⟩
    show (get? bytesLt _ entries).bind _ = _
    rw [hvalue]
    rfl
  have hentries : (entries.zip (value.map Prod.snd)).map (fun eo => (eo.1.1, eo.2)) = value := by
    clear hbuilds hsorted hkeys hfind
    induction hcreate with
    | nil => rfl
    | cons h _ ih =>
      rw [List.map_cons, List.zip_cons_cons, List.map_cons, ih, ← h.1]
  simp only [getPath, sub_found hfind]
  refine (collect_of_builds hbuilds []).trans ?_
  have hmap := objectMap_eq hsorted hbuilds.length_eq
  rw [hentries] at hmap
  exact congrArg (·, []) hmap

def OptionsClass.ReadsBack (vars : Variables) (lib : CLib) (delimiter : UInt8)
    (options : OptionsClass T) (object : T) (saved : List (Bytes × DynTree)) : Prop :=
  ∀ (g : DynamicGetter) (entries : List (Bytes × DynTree)), g.delimiter = delimiter →
    g.data = .dict entries →
    (∀ k ∈ options.names, get? bytesLt k entries = get? bytesLt k saved) →
      options.init vars lib g [] = (object, [])

theorem OptionsClass.ReadsBack.created {options : OptionsClass T} {object : T}
    {saved : List (Bytes × DynTree)} (h : options.ReadsBack vars lib delimiter object saved) :
    CreatedFrom delimiter (options.create vars lib) (some object) (.dict saved) := by
  intro g hdata hdelimiter
  rw [create, h g saved hdelimiter hdata fun _ _ => rfl]
  rfl

mutual

theorem OptionType.save_reads (hd : IsDelimiter delimiter) {A : Type} (type : OptionType A)
    (hnamed : type.WellNamed delimiter) (value : A) (hcomplete : type.Complete delimiter value) :
    ∃ tree, type.save value = some tree ∧ ∀ (g : DynamicGetter) (path : DynamicPath) (out : A),
      g.delimiter = delimiter →
      path.find vars g.data = some tree → type.getPath vars lib g path out [] = (value, []) := by
  match A, type, value with
  | _, .scalar type, _ => exact ⟨_, rfl, fun g path out _ hfind => type.getPath_read hfind⟩
  | _, .sequence item, _ =>
    refine ⟨_, rfl, fun g path out _ hfind => ?_⟩
    rw [OptionType.getPath]
    exact DynamicGetter.getPath_sequence item hfind
  | _, .set item, _ =>
    refine ⟨_, rfl, fun g path out _ hfind => ?_⟩
    rw [OptionType.getPath]
    exact DynamicGetter.getPath_set item hcomplete hfind
  | _, .map type, _ =>
    refine ⟨_, rfl, fun g path out _ hfind => ?_⟩
    rw [OptionType.getPath]
    exact DynamicGetter.getPath_map type hcomplete hfind
  | _, .shared options, _ =>
    obtain ⟨object, rfl, hobject⟩ := hcomplete
    obtain ⟨saved, hsave, -, -, hreads⟩ :=
      options.save_reads hd hnamed object hobject [] (sorted_nil _)
    refine ⟨.dict saved, ?_, fun g path out hdelimiter hfind => ?_⟩
    · simp only [OptionType.save, hsave, Option.map_some]
    · subst hdelimiter
      exact DynamicGetter.getShared_created hfind hreads.created
  | _, .sharedSequence options, value =>
    have hitems : ∀ o ∈ value, ∃ data,
      (o.bind fun object => (options.saveEntries object []).map DynTree.dict) = some data ∧
        CreatedFrom delimiter (options.create vars lib) o data := by
      intro o ho
      obtain ⟨object, rfl, hobject⟩ := hcomplete o ho
      obtain ⟨saved, hsave, -, -, hreads⟩ :=
        options.save_reads hd hnamed object hobject [] (sorted_nil _)
      exact ⟨.dict saved, by rw [Option.bind_some, hsave, Option.map_some], hreads.created⟩
    obtain ⟨items, hsave, hcreated⟩ := Traverse.forall₂_mapM hitems
    refine ⟨.list items, ?_, fun g path out hdelimiter hfind => ?_⟩
    · rw [OptionType.save, hsave]
      rfl
    · subst hdelimiter
      rw [OptionType.getPath]
      exact DynamicGetter.getPath_sharedSequence hd hfind hcreated
  | _, .sharedMap options, value =>
    obtain ⟨hsorted, hentries⟩ := hcomplete
    have hitems : ∀ e ∈
        value, ∃ e', (e.2.bind fun object => (options.saveEntries object []).map fun dict =>
        (e.1, DynTree.dict dict)) = some e' ∧ e.1 = e'.1 ∧
          CreatedFrom delimiter (options.create vars lib) e.2 e'.2 := by
      intro e he
      obtain ⟨-, object, ho, hobject⟩ := hentries e he
      obtain ⟨saved, hsave, -, -, hreads⟩ :=
        options.save_reads hd hnamed object hobject [] (sorted_nil _)
      refine ⟨(e.1, .dict saved), by rw [ho, Option.bind_some, hsave, Option.map_some], rfl, ?_⟩
      rw [ho]
      exact hreads.created
    obtain ⟨items, hsave, hcreated⟩ := Traverse.forall₂_mapM hitems
    have hkeys : value.map Prod.fst = items.map Prod.fst :=
      List.forall₂_eq_eq_eq ▸ List.forall₂_map_left_iff.mpr
        (List.forall₂_map_right_iff.mpr (hcreated.imp fun _ _ h => h.1))
    have hsorted' : Sorted bytesLt items := hsorted.of_keys hkeys
    refine ⟨.dict items, ?_, fun g path out hdelimiter hfind => ?_⟩
    · rw [OptionType.save, hsave]
      show some (DynTree.dict (putAll items)) = _
      rw [putAll_sorted hsorted']
    · subst hdelimiter
      rw [OptionType.getPath]
      exact DynamicGetter.getPath_sharedMap hsorted' (fun e he => (hentries e he).1) hfind hcreated
termination_by structural type

theorem OptionsClass.save_reads (hd : IsDelimiter delimiter) {T : Type} (options : OptionsClass T)
    (hnamed : options.WellNamed delimiter) (object : T)
    (hcomplete : options.Complete delimiter object) (dict : List (Bytes × DynTree))
    (hsorted : Sorted bytesLt dict) :
    ∃ saved, options.saveEntries object dict = some saved ∧ Sorted bytesLt saved ∧
      (∀ k ∉ options.names, get? bytesLt k saved = get? bytesLt k dict) ∧
        options.ReadsBack vars lib delimiter object saved := by
  match T, options, object with
  | _, .begin, _ => exact ⟨dict, rfl, hsorted, fun _ _ => rfl, fun g entries _ _ _ => rfl⟩
  | _, .option base type name default, object =>
    obtain ⟨hbase, hnew, hname, htype⟩ := hnamed
    obtain ⟨tmp, hsave, hread⟩ := type.save_reads hd htype object.2 hcomplete.2
    obtain ⟨saved, hsaved, hsorted', hothers, hreads⟩ :=
      base.save_reads hd hbase object.1 hcomplete.1
      (update bytesLt name .undef (fun _ => tmp) dict)
        (update_sorted bytesLt_strictWeak hsorted _ _ _)
    have hvalue : get? bytesLt name saved = some tmp := by
      rw [hothers name hnew, get?_update bytesLt_strictWeak,
        if_pos (bytesLt_strictWeak.equiv_refl name)]
    refine ⟨saved, ?_, hsorted', fun k hk => ?_, fun g entries hdelimiter hdata hentries => ?_⟩
    · rw [OptionsClass.saveEntries, hsave]
      exact hsaved
    · obtain ⟨hother, hbase'⟩ := not_or.mp (mt List.mem_cons.mpr hk)
      rw [hothers k hbase', get?_update bytesLt_strictWeak,
        if_neg fun h => hother (equiv_bytesLt.mp h).symm]
    · subst hdelimiter
      have hfind : (⟨g.delimiter, [.key name], []⟩ : DynamicPath).find vars g.data = some tmp := by
        rw [hdata]
        show (get? bytesLt name entries).bind _ = _
        rw [hentries name List.mem_cons_self, hvalue]
        rfl
      have hoption : g.getOption vars default type.initial name (type.getPath vars lib g) [] =
          (object.2, []) :=
        DynamicGetter.getOption_read hname fun out => hread g _ out rfl hfind
      have hrest := hreads g entries rfl hdata fun k hk => hentries k (List.mem_cons_of_mem name hk)
      rw [OptionsClass.init, hoption]
      simp only [hrest]
termination_by structural options

end

end

/-- An object is created again from the value that it is saved as, and from the JSON text of this
value. -/
theorem options_round_trip (vars : Variables) (lib : CLib) {delimiter : UInt8}
    (hd : IsDelimiter delimiter) {T : Type} (options : OptionsClass T)
    (hnamed : options.WellNamed delimiter) (object : T)
    (hcomplete : options.Complete delimiter object) :
    ∃ tree, options.saveToDynamic object = some tree ∧
      CreatedFrom delimiter (options.create vars lib) (some object) tree ∧
      (tree.Writable → ∀ (yajl : Yajl) (strtod : Strtod),
        (∀ text v, Rfc8259.readText text = some v → yajl.parse text = (v.events, true)) →
        ∀ (m : Store), m.Bounded →
        ∀ erange, ∃ text, tree.toJson lib = some text ∧
          ∃ d m', dynamicFromJson yajl strtod text m erange = some (d, none, m') ∧
          Shows m' Set.univ d tree) := by
  obtain ⟨saved, hsave, -, -, hreads⟩ :=
    options.save_reads hd hnamed object hcomplete [] (sorted_nil _)
  refine ⟨.dict saved, ?_, hreads.created, fun hwritable yajl strtod hparse m hb erange => ?_⟩
  · rw [OptionsClass.saveToDynamic, hsave, Option.map_some]
  · obtain ⟨text, hwrite, hwritten⟩ := toJson_written lib _ hwritable
    exact ⟨text, hwrite, dynamicFromJson_reading (hparse text _ (readText_written hwritten)) hb rfl
      (read_json strtod _ hwritable erange)⟩

def addressOptions : OptionsClass ((Unit × Bytes) × BitVec 64) :=
  .option (.option .begin (.scalar (.item .string)) (ascii "street") none)
    (.scalar (.item (.int .uint64))) (ascii "no") none

def personOptions :
    OptionsClass (((Unit × Bytes) × List (Option ((Unit × Bytes) × BitVec 64))) × BitVec 16) :=
  .option (.option (.option .begin (.scalar (.item .string)) (ascii "name") none)
    (.sharedSequence addressOptions)
    (ascii "address") none) (.scalar (.item (.int .uint16))) (ascii "age") (some 17)

def boris : ((Unit × Bytes) × List (Option ((Unit × Bytes) × BitVec 64))) × BitVec 16 :=
  ((((), ascii "Boris"), [some (((), ascii "Lenina"), 93)]), 45)

def borisSaved : DynTree :=
  .dict [(ascii "address",
    .list [.dict [(ascii "no", .plain .integer 93), (ascii "street", .string (ascii "Lenina"))]]),
    (ascii "age", .plain .integer 45), (ascii "name", .string (ascii "Boris"))]

theorem writable_borisSaved : borisSaved.Writable := by
  have hkey : ∀ k ∈ [ascii "address", ascii "age", ascii "name", ascii "no", ascii "street"],
      PlainKey k := by
    intro k hk
    simp only [List.mem_cons, List.not_mem_nil, or_false] at hk
    rcases hk with rfl | rfl | rfl | rfl | rfl <;>
      exact ⟨utf8_of_ascii (List.forall_iff_forall_mem.mp (by decide)),
        List.forall_iff_forall_mem.mp (by decide)⟩
  have htext : ∀ k ∈ [ascii "Boris", ascii "Lenina"], PlainText k := by
    intro k hk
    simp only [List.mem_cons, List.not_mem_nil, or_false] at hk
    rcases hk with rfl | rfl <;>
      exact ⟨utf8_of_ascii (List.forall_iff_forall_mem.mp (by decide)),
        List.forall_iff_forall_mem.mp (by decide), by decide⟩
  have haddress :
      (DynTree.dict [(ascii "no", .plain .integer 93),
        (ascii "street", .string (ascii "Lenina"))]).Writable := by
    refine .dict (List.pairwise_pair.mpr (by decide)) ?_ ?_
    · simpa using ⟨hkey _ (by decide), hkey _ (by decide)⟩
    · simpa using ⟨.integer 93, .string (htext _ (by decide))⟩
  refine .dict (by unfold Sorted; decide) ?_ ?_
  · simpa using ⟨hkey _ (by decide), hkey _ (by decide), hkey _ (by decide)⟩
  · simpa using ⟨.list (by simpa using haddress), .integer 45, .string (htext _ (by decide))⟩

theorem options_round_trip_boris :
    ∃ tree, personOptions.saveToDynamic boris = some tree ∧
      CreatedFrom 46 (personOptions.create ⟨fun _ => [], fun _ => 0⟩
        ⟨fun _ => 0, fun _ => [], fun _ => [], fun _ => 0, fun _ => 0⟩) (some boris) tree ∧
      ∃ text, tree.toJson ⟨fun _ => 0, fun _ => [], fun _ => [], fun _ => 0, fun _ => 0⟩ =
        some text ∧
        ∃ d m', dynamicFromJson grammarYajl (fun _ => (0, false)) text ⟨0, fun _ => none⟩ false =
          some (d, none, m') ∧
          Shows m' Set.univ d tree := by
  have hnames : ∀ k ∈ [ascii "street", ascii "no", ascii "name", ascii "address", ascii "age"],
      IsName 46 k := by
    intro k hk
    simp only [List.mem_cons, List.not_mem_nil, or_false] at hk
    rcases hk with rfl | rfl | rfl | rfl | rfl <;>
      exact ⟨by decide, List.forall_iff_forall_mem.mp (by decide), by decide⟩
  have hnamed : personOptions.WellNamed 46 := by
    have haddress : addressOptions.WellNamed 46 :=
      ⟨⟨trivial, by decide, hnames _ (by decide), trivial⟩, by decide, hnames _ (by decide),
        trivial⟩
    exact ⟨⟨⟨trivial, by decide, hnames _ (by decide), trivial⟩, by decide, hnames _ (by decide),
      haddress⟩, by decide, hnames _ (by decide), trivial⟩
  have hcomplete : personOptions.Complete 46 boris := by
    refine ⟨⟨⟨trivial, trivial⟩, fun o ho => ?_⟩, trivial⟩
    cases List.mem_singleton.mp ho
    exact ⟨_, rfl, ⟨trivial, trivial⟩, trivial⟩
  obtain ⟨tree, hsave, hcreated, hjson⟩ := options_round_trip ⟨fun _ => [], fun _ => 0⟩
    ⟨fun _ => 0, fun _ => [], fun _ => [], fun _ => 0, fun _ => 0⟩ isDelimiter_dot personOptions
      hnamed boris hcomplete
  have hsaved : personOptions.saveToDynamic boris = some borisSaved := rfl
  cases hsaved.symm.trans hsave
  refine ⟨_, hsave, hcreated, hjson writable_borisSaved grammarYajl _ (fun text v hv => ?_) _
    (fun _ _ => rfl) false⟩
  simp only [grammarYajl, hv]

end Nkit
