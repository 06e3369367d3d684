import Nkit.Dynamic.OrderLaws
import Nkit.Dynamic.Update

/-! Deep copies (`Dynamic::Clone`). -/

namespace Nkit
open OrderedMap

namespace Store

/-- `Dynamic::PushBack`. -/
def pushBack (d item : Dyn) (m : Store) : Store :=
  match d, m.get d with
  | .shared a, some (.vector items) => m.put a (.vector (items ++ [item]))
  | _, _ => m

/-- `d[key] = value`; what is not a dict has `D_NONE` for an entry, which is never overwritten. -/
def setKey (d : Dyn) (key : Bytes) (value : Dyn) (m : Store) : Store :=
  match d, m.get d with
  | .shared a, some (.map entries) =>
    m.put a (.map
      (OrderedMap.update bytesLt key .undef (fun old => if old.isNone then old else value) entries))
  | _, _ => m

/-- `Dynamic::MongodbOID`. -/
def mongodbOID (s : Bytes) (m : Store) : Dyn × Store :=
  if s.length ≠ 24 ∨ isHexLower s = false then (.undef, m) else m.alloc (.oid s)

/-- `Impl<STRING>::OP_CLONE`. -/
def cloneString (d : Dyn) (m : Store) : Option (Dyn × Store) :=
  match m.get d with
  | some (.string s) => some (m.alloc (.string s))
  | _ => none

/-- One cell of `SharedTable::Clone(true)`. -/
def cloneCell (c : Column) (d : Dyn) (m : Store) : Option (Dyn × Store) :=
  if isRefCounted c.type then cloneString d m else some (d, m)

def cloneCells : List Column → List Dyn → Store → Option (List Dyn × Store)
  | [], _, m => some ([], m)
  | _ :: _, [], _ => none
  | c :: columns, d :: row, m => do
    let (d, m) ← cloneCell c d m
    let (row, m) ← cloneCells columns row m
    some (d :: row, m)

def cloneRows (columns : List Column) : List (List Dyn) → Store → Option (List (List Dyn) × Store)
  | [], m => some ([], m)
  | row :: rows, m => do
    let (row, m) ← cloneCells columns row m
    let (rows, m) ← cloneRows columns rows m
    some (row :: rows, m)

/-- The loop of `Impl<LIST>::OP_CLONE`. -/
def cloneItems (clone : Dyn → Store → Option (Dyn × Store)) (result : Dyn) (items : List Dyn)
    (m : Store) : Option Store :=
  items.foldlM (fun m item => do
    let (item, m) ← clone item m
    some (m.pushBack result item)) m

/-- The loop of `Impl<DICT>::OP_CLONE`. -/
def cloneEntries (clone : Dyn → Store → Option (Dyn × Store)) (result : Dyn)
    (entries : List (Bytes × Dyn)) (m : Store) :
    Option Store :=
  entries.foldlM (fun m e => do
    let (value, m) ← clone e.2 m
    some (m.setKey result e.1 value)) m

/-- `Dynamic::Clone`; the fuel bounds the nesting. -/
def clone : ℕ → Dyn → Store → Option (Dyn × Store)
  | 0, _, _ => none
  | _ + 1, .plain type data, m =>
    match type with
    | .undef => some (.undef, m)
    | .none => some (.plain .none 0, m)
    | .bool => some (.plain .bool (if data ≠ 0 then 1 else 0), m)
    | _ => some (.plain type data, m)
  | fuel + 1, .shared a, m =>
    match m.objs a with
    | some (.string s) => some (m.alloc (.string s))
    | some (.oid s) => some (m.mongodbOID s)
    | some (.vector items) => do
      let (result, m) := m.alloc (.vector [])
      let m ← cloneItems (clone fuel) result items m
      some (result, m)
    | some (.map entries) => do
      let (result, m) := m.alloc (.map [])
      let m ← cloneEntries (clone fuel) result entries m
      some (result, m)
    | some (.table columns rows) => do
      -- the copy starts with the cells of the original
      let copy := m.next
      let (result, m) := m.alloc (.table columns rows)
      let (rows, m) ← cloneRows columns rows m
      some (result, m.put copy (.table columns rows))
    | none => none

end Store

namespace DynTree

/-- Values as the library makes them, without NaN and `NONE`. -/
inductive Clonable : DynTree → Prop where
  | undef : Clonable undef
  | plain {type : PlainType} {data : BitVec 64} (hundef : type ≠ .undef) (hnone : type ≠ .none)
      (hproper : (DynTree.plain type data).Proper) : Clonable (.plain type data)
  | string (s : Bytes) : Clonable (.string s)
  | oid {s : Bytes} (hproper : (DynTree.oid s).Proper) : Clonable (.oid s)
  | list {ts : List DynTree} (hitems : ∀ t ∈ ts, Clonable t) : Clonable (.list ts)
  | dict {tes : List (Bytes × DynTree)} (hvalues : ∀ e ∈ tes, Clonable e.2) : Clonable (.dict tes)
  | table {columns : List Column} {rows : List (List CellTree)}
      (hproper : (DynTree.table columns rows).Proper)
      (hcells : ∀ row ∈ rows, ∀ c ∈ row, c.toTree.Proper) : Clonable (.table columns rows)

def Made : PlainType → BitVec 64 → Prop
  | .undef, w | .none, w => w = 0
  | .bool, w => w = 0 ∨ w = 1
  | _, _ => True

/-- All values as the library makes them. -/
inductive Storable : DynTree → Prop where
  | plain {type : PlainType} {data : BitVec 64} (hmade : Made type data) :
      Storable (.plain type data)
  | string (s : Bytes) : Storable (.string s)
  | oid {s : Bytes} (hproper : (DynTree.oid s).Proper) : Storable (.oid s)
  | list {ts : List DynTree} (hitems : ∀ t ∈ ts, Storable t) : Storable (.list ts)
  | dict {tes : List (Bytes × DynTree)} (hvalues : ∀ e ∈ tes, Storable e.2) : Storable (.dict tes)
  | table {columns : List Column} {rows : List (List CellTree)}
      (hproper : (DynTree.table columns rows).Proper) :
      Storable (.table columns rows)

theorem Clonable.storable {t : DynTree} (h : Clonable t) : Storable t := by
  induction h with
  | undef => exact .plain rfl
  | @plain type data hundef hnone hproper =>
    refine .plain ?_
    cases type with
    | undef => exact absurd rfl hundef
    | none => exact absurd rfl hnone
    | bool => exact hproper
    | integer | unsignedInteger | float | dateTime => trivial
  | string s => exact .string s
  | oid hproper => exact .oid hproper
  | list _ ih => exact .list ih
  | dict _ ih => exact .dict ih
  | table hproper _ => exact .table hproper

theorem eqPlain_refl (lib : CLib) {t : DynTree} (h : t.Proper) : t.eqPlain lib t = true := by
  cases t with
  | plain type w =>
    cases type with
    | float =>
      have hnan : Double.isNaN w = false := h
      simp [eqPlain, getDouble, Double.eq, hnan]
    | undef | integer | unsignedInteger | bool | dateTime | none => simp [eqPlain, getInt, getUInt]
  | string s => simp [eqPlain, getString]
  | oid s => simp [eqPlain, getString]
  | list | dict | table => simp [eqPlain]

theorem cellValue_proper {rows : List (List CellTree)}
    (h : ∀ row ∈ rows, ∀ c ∈ row, c.toTree.Proper) (row col : ℕ) :
    (cellValue rows row col).Proper := by
  unfold cellValue
  by_cases hrow : row < rows.length
  · rw [List.getD_eq_getElem _ _ hrow]
    by_cases hcol : col < rows[row].length
    · rw [List.getD_eq_getElem _ _ hcol]
      exact h _ (List.getElem_mem hrow) _ (List.getElem_mem hcol)
    · rw [List.getD_eq_default _ _ (Nat.le_of_not_lt hcol)]
      trivial
  · rw [List.getD_eq_default _ _ (Nat.le_of_not_lt hrow)]
    trivial

theorem eqItems_refl (lib : CLib) {ts : List DynTree} (h : ∀ t ∈ ts, t.eq lib t = true) :
    eqItems lib ts ts = true := by
  induction ts with
  | nil => rfl
  | cons t ts ih =>
    rw [eqItems, h t List.mem_cons_self, ih fun t' ht' => h t' (List.mem_cons_of_mem t ht')]
    rfl

theorem eqEntries_refl (lib : CLib) {tes : List (Bytes × DynTree)}
    (h : ∀ e ∈ tes, e.2.eq lib e.2 = true) :
    eqEntries lib tes tes = true := by
  induction tes with
  | nil => rfl
  | cons e tes ih =>
    rw [eqEntries, h e List.mem_cons_self, ih fun e' he' => h e' (List.mem_cons_of_mem e he'),
      beq_self_eq_true]
    rfl

theorem Clonable.eq_refl (lib : CLib) {t : DynTree} (h : Clonable t) : t.eq lib t = true := by
  induction h with
  | undef => rfl
  | plain _ _ hproper => exact eqPlain_refl lib hproper
  | string s => exact eqPlain_refl lib (t := .string s) trivial
  | oid hproper => exact eqPlain_refl lib hproper
  | list _ ih => rw [eq, beq_self_eq_true, eqItems_refl lib ih]; rfl
  | dict _ ih => rw [eq, beq_self_eq_true, eqEntries_refl lib ih]; rfl
  | table _ hcells =>
    rw [eq, beq_self_eq_true, beq_self_eq_true, Bool.true_and, Bool.true_and, List.all_eq_true]
    intro row _
    rw [List.all_eq_true]
    intro col _
    exact eqPlain_refl lib (cellValue_proper hcells row col)

end DynTree

structure Store.Grown (m m' : Store) : Prop where
  bounded : m'.Bounded
  next : m.next ≤ m'.next
  same : ∀ a < m.next, m'.objs a = m.objs a

def Store.Keeps (m m' : Store) : Prop := ∀ a o, m.objs a = some o → m'.objs a = some o

section Grown
variable {m m' m₁ m₂ : Store} {d : Dyn} {t : DynTree} {P : Set ℕ} {r : ℕ}

theorem Store.Bounded.lt (h : m.Bounded) {a : ℕ} {o : StoreObject} (ha : m.objs a = some o) :
    a < m.next := by
  by_contra hle
  rw [h a (Nat.le_of_not_lt hle)] at ha
  cases ha

theorem Store.Grown.refl (h : m.Bounded) : m.Grown m := ⟨h, Nat.le_refl _, fun _ _ => rfl⟩

theorem Store.Grown.trans (h : m.Grown m₁) (h' : m₁.Grown m₂) : m.Grown m₂ :=
  ⟨h'.bounded, h.next.trans h'.next,
    fun a ha => (h'.same a (ha.trans_le h.next)).trans (h.same a ha)⟩

theorem Store.Grown.keeps (h : m₁.Grown m₂) (hb : m₁.Bounded) : m₁.Keeps m₂ :=
  fun a _ ha => (h.same a (hb.lt ha)).trans ha

theorem Store.Keeps.trans (h : m.Keeps m₁) (h' : m₁.Keeps m₂) :
    m.Keeps m₂ := fun a o ha => h' a o (h a o ha)

theorem Store.grown_alloc (h : m.Bounded) (o : StoreObject) : m.Grown (m.alloc o).2 := by
  refine ⟨fun a ha => ?_, Nat.le_succ _, fun a ha => Function.update_of_ne ha.ne _ _⟩
  have hlt : m.next < a := ha
  exact (Function.update_of_ne hlt.ne' _ _).trans (h a hlt.le)

theorem Store.alloc_self (m : Store) (o : StoreObject) :
    (m.alloc o).2.objs m.next = some o := Function.update_self ..

structure Filling (m : Store) (r : ℕ) (m₁ : Store) : Prop where
  bounded : m₁.Bounded
  keeps : m.Keeps m₁
  free : m.objs r = none
  lt : r < m₁.next

theorem filling_alloc (hb : m₁.Bounded) (hkeeps : m.Keeps m₁) (o : StoreObject) :
    Filling m m₁.next (m₁.alloc o).2 := by
  have hgrown := Store.grown_alloc hb o
  refine ⟨hgrown.bounded, hkeeps.trans (hgrown.keeps hb), ?_, Nat.lt_succ_self _⟩
  cases hr : m.objs m₁.next with
  | none => rfl
  | some o' => exact absurd (hb.lt (hkeeps _ _ hr)) (Nat.lt_irrefl _)

theorem Filling.put (h : Filling m r m₁) (hgrown : m₁.Grown m₂) (o : StoreObject) :
    Filling m r (m₂.put r o) ∧
    (∀ d t, Shows m₁ (Set.Ioo r m₁.next) d t → Shows (m₂.put r o) (Set.Ioo r m₂.next) d t) ∧
    (∀ d t, Shows m₂ (Set.Ico m₁.next m₂.next) d t → Shows (m₂.put r o) (Set.Ioo r m₂.next) d t) ∧
    ∀ a < m₁.next, a ≠ r → (m₂.put r o).objs a = m₁.objs a := by
  have hother : ∀ a < m₁.next, a ≠ r → (m₂.put r o).objs a = m₁.objs a :=
    fun a ha hne => (Store.put_same o hne).trans (hgrown.same a ha)
  refine ⟨⟨fun a ha => ?_, fun a o' ha => ?_, h.free, h.lt.trans_le hgrown.next⟩, fun d t hd => ?_,
    fun d t hd => ?_, hother⟩
  · have hne : a ≠ r := ((h.lt.trans_le hgrown.next).trans_le ha).ne'
    exact (Store.put_same o hne).trans (hgrown.bounded a ha)
  · have hne : a ≠ r := by
      rintro rfl
      rw [h.free] at ha
      cases ha
    exact (Store.put_same o hne).trans (hgrown.keeps h.bounded a o' (h.keeps a o' ha))
  · exact hd.frame (fun a ha => hother a ha.2 ha.1.ne') fun a ha =>
      ⟨ha.1, ha.2.trans_le hgrown.next⟩
  · exact hd.frame (fun a ha => Store.put_same o (h.lt.trans_le ha.1).ne') fun a ha =>
      ⟨h.lt.trans_le ha.1, ha.2⟩

end Grown

def Copies (m : Store) (clone : Dyn → Store → Option (Dyn × Store)) (x : Dyn) (t : DynTree) :
    Prop :=
  ∀ m₁ : Store, m₁.Bounded → m.Keeps m₁ →
    ∃ x' m₂, clone x m₁ = some (x', m₂) ∧ m₁.Grown m₂ ∧ Shows m₂ (Set.Ico m₁.next m₂.next) x' t

/-- What a loop changed that fills the object at `r`. -/
structure Filled (m : Store) (r : ℕ) (m₁ m₂ : Store) : Prop where
  filling : Filling m r m₂
  next : m₁.next ≤ m₂.next
  same : ∀ a < m₁.next, a ≠ r → m₂.objs a = m₁.objs a

section Loops
variable {m m₁ m₂ : Store} {r : ℕ} {clone : Dyn → Store → Option (Dyn × Store)}

theorem Filled.refl (h : Filling m r m₁) : Filled m r m₁ m₁ := ⟨h, Nat.le_refl _, fun _ _ _ => rfl⟩

theorem Filled.trans {m₃ : Store} (h : Filled m r m₁ m₂) (h' : Filled m r m₂ m₃) :
    Filled m r m₁ m₃ :=
  ⟨h'.filling, h.next.trans h'.next,
    fun a ha hne => (h'.same a (ha.trans_le h.next) hne).trans (h.same a ha hne)⟩

theorem Filled.grown {o : StoreObject} (hb : m₁.Bounded) (h : Filled m m₁.next (m₁.alloc o).2 m₂) :
    m₁.Grown m₂ := by
  have halloc := Store.grown_alloc hb o
  refine ⟨h.filling.bounded, halloc.next.trans h.next, fun a ha => ?_⟩
  exact (h.same a (ha.trans_le halloc.next) ha.ne).trans (halloc.same a ha)

theorem cloneItems_done {items done : List Dyn} {ts tdone : List DynTree}
    (h : List.Forall₂ (Copies m clone) items ts) (hfill : Filling m r m₁)
    (hobj : m₁.objs r = some (.vector done))
    (hdone : List.Forall₂ (Shows m₁ (Set.Ioo r m₁.next)) done tdone) :
    ∃ m₂ done', Store.cloneItems clone (.shared r) items m₁ = some m₂ ∧ Filled m r m₁ m₂ ∧
      m₂.objs r = some (.vector done') ∧
        List.Forall₂ (Shows m₂ (Set.Ioo r m₂.next)) done' (tdone ++ ts) := by
  induction h generalizing m₁ done tdone with
  | nil => exact ⟨m₁, done, rfl, .refl hfill, hobj, by rwa [List.append_nil]⟩
  | @cons x t items ts hx _ ih =>
    obtain ⟨y, m₂, hclone, hgrown, hy⟩ := hx m₁ hfill.bounded hfill.keeps
    have hobj₂ : m₂.objs r = some (.vector done) := (hgrown.same r hfill.lt).trans hobj
    obtain ⟨hfill₂, hold, hnew, hsame⟩ := hfill.put hgrown (.vector (done ++ [y]))
    have hdone₂ := List.rel_append (hdone.imp hold) (List.Forall₂.cons (hnew y t hy) .nil)
    obtain ⟨m₃, done', hrun, hfilled, hobj', hdone'⟩ := ih hfill₂ (Store.put_self ..) hdone₂
    have hstep : Filled m r m₁ (m₂.put r (.vector (done ++ [y]))) := ⟨hfill₂, hgrown.next, hsame⟩
    refine ⟨m₃, done', ?_, hstep.trans hfilled, hobj', by rwa [List.append_assoc] at hdone'⟩
    have hpush : m₂.pushBack (.shared r) y = m₂.put r (.vector (done ++ [y])) := by
      simp only [Store.pushBack, Store.get, hobj₂]
    unfold Store.cloneItems at hrun ⊢
    rw [List.foldlM_cons, hclone]
    show (List.foldlM _ (m₂.pushBack (.shared r) y) items) = _
    rw [hpush]
    exact hrun

theorem cloneEntries_done {entries done : List (Bytes × Dyn)} {tes : List (Bytes × DynTree)}
    (tdone : List (Bytes × DynTree))
    (h : List.Forall₂ (fun e te => e.1 = te.1 ∧ Copies m clone e.2 te.2) entries tes)
    (hsorted : Sorted bytesLt (tdone ++ tes)) (hfill : Filling m r m₁)
    (hobj : m₁.objs r = some (.map done))
    (hdone : List.Forall₂ (fun e te => e.1 = te.1 ∧ Shows m₁ (Set.Ioo r m₁.next) e.2 te.2) done
      tdone) :
    ∃ m₂ done', Store.cloneEntries clone (.shared r) entries m₁ = some m₂ ∧ Filled m r m₁ m₂ ∧
      m₂.objs r = some (.map done') ∧
      List.Forall₂ (fun e te => e.1 = te.1 ∧ Shows m₂ (Set.Ioo r m₂.next) e.2 te.2) done'
        (tdone ++ tes) := by
  induction h generalizing m₁ done tdone with
  | nil => exact ⟨m₁, done, rfl, .refl hfill, hobj, by rwa [List.append_nil]⟩
  | @cons e te entries tes he _ ih =>
    obtain ⟨y, m₂, hclone, hgrown, hy⟩ := he.2 m₁ hfill.bounded hfill.keeps
    have hobj₂ : m₂.objs r = some (.map done) := (hgrown.same r hfill.lt).trans hobj
    obtain ⟨hfill₂, hold, hnew, hsame⟩ := hfill.put hgrown (.map (done ++ [(e.1, y)]))
    have hdone₂ :
      List.Forall₂ (fun x tx => x.1 = tx.1 ∧ Shows (m₂.put r (.map (done ++ [(e.1, y)])))
        (Set.Ioo r m₂.next) x.2 tx.2) (done ++ [(e.1, y)]) (tdone ++ [te]) :=
      List.rel_append (hdone.imp fun _ _ hd => ⟨hd.1, hold _ _ hd.2⟩)
        (.cons ⟨he.1, hnew y te.2 hy⟩ .nil)
    have hlast : ∀ e' ∈ done, bytesLt e'.1 e.1 = true := by
      intro e' he'
      have hkey : e'.1 ∈ tdone.map Prod.fst := keys_of_forall₂ hdone ▸ List.mem_map_of_mem he'
      obtain ⟨te', hte', heq⟩ := List.mem_map.mp hkey
      have hlt := (List.pairwise_append.mp hsorted).2.2 te' hte' te List.mem_cons_self
      rwa [heq, ← he.1] at hlt
    obtain ⟨m₃, done', hrun, hfilled, hobj', hdone'⟩ :=
      ih (tdone ++ [te]) (by rwa [List.append_assoc]) hfill₂ (Store.put_self ..) hdone₂
    have hstep : Filled m r m₁ (m₂.put r (.map (done ++ [(e.1, y)]))) :=
      ⟨hfill₂, hgrown.next, hsame⟩
    refine ⟨m₃, done', ?_, hstep.trans hfilled, hobj', by rwa [List.append_assoc] at hdone'⟩
    have hset : m₂.setKey (.shared r) e.1 y = m₂.put r (.map (done ++ [(e.1, y)])) := by
      simp only [Store.setKey, Store.get, hobj₂, update_last hlast]
      rfl
    unfold Store.cloneEntries at hrun ⊢
    rw [List.foldlM_cons, hclone]
    show (List.foldlM _ (m₂.setKey (.shared r) e.1 y) entries) = _
    rw [hset]
    exact hrun

theorem cloneCells_done {P : Set ℕ} {columns : List Column} {row : List Dyn} {trow : List CellTree}
    (h : List.Forall₂ (ShowsCell m P) row trow)
    (htypes : trow.map CellTree.type = columns.map fun c => c.type.toDynamic) (hb : m₁.Bounded)
    (hkeeps : m.Keeps m₁) :
    ∃ row' m₂, Store.cloneCells columns row m₁ = some (row', m₂) ∧ m₁.Grown m₂ ∧
      List.Forall₂ (ShowsCell m₂ (Set.Ico m₁.next m₂.next)) row' trow := by
  induction h generalizing m₁ columns with
  | nil =>
    obtain rfl := List.map_eq_nil_iff.mp htypes.symm
    exact ⟨[], m₁, rfl, .refl hb, .nil⟩
  | @cons d c row trow hd _ ih =>
    cases columns with
    | nil => cases htypes
    | cons column columns =>
      obtain ⟨htype, htypes⟩ : c.type = column.type.toDynamic ∧ _ := List.cons.inj htypes
      have hcell : ∃ d' m₂, Store.cloneCell column d m₁ = some (d', m₂) ∧
          m₁.Grown m₂ ∧ ShowsCell m₂ (Set.Ico m₁.next m₂.next) d' c := by
        unfold Store.cloneCell
        cases hd with
        | plain type data =>
          have hplain : isRefCounted column.type = false := by
            rw [← htype]
            cases type <;> rfl
          rw [hplain]
          exact ⟨_, m₁, rfl, .refl hb, .plain type data⟩
        | @string a s hobj ha =>
          have hstring : isRefCounted column.type = true := by
            rw [← htype]
            rfl
          rw [hstring, if_pos rfl]
          refine ⟨_, _, ?_, Store.grown_alloc hb (.string s),
            .string (m₁.alloc_self _) ⟨Nat.le_refl _, Nat.lt_succ_self _⟩⟩
          simp only [Store.cloneString, Store.get, hkeeps a _ hobj]
          rfl
      obtain ⟨d', m₂, hclone, hgrown, hd'⟩ := hcell
      obtain ⟨row', m₃, hrun, hgrown', hrow'⟩ :=
        ih htypes hgrown.bounded (hkeeps.trans (hgrown.keeps hb))
      refine ⟨d' :: row', m₃, ?_, hgrown.trans hgrown', .cons ?_ ?_⟩
      · rw [Store.cloneCells, hclone]
        show (Store.cloneCells columns row m₂ >>= _) = _
        rw [hrun]
        rfl
      · exact hd'.frame (fun a ha => hgrown'.same a ha.2) fun a ha =>
          ⟨ha.1, ha.2.trans_le hgrown'.next⟩
      · exact hrow'.imp fun _ _ hc => hc.frame (fun _ _ => rfl) fun a ha =>
          ⟨hgrown.next.trans ha.1, ha.2⟩

theorem cloneRows_done {P : Set ℕ} {columns : List Column} {rows : List (List Dyn)}
    {trows : List (List CellTree)} (h : List.Forall₂ (List.Forall₂ (ShowsCell m P)) rows trows)
    (htypes : ∀ row ∈ trows, row.map CellTree.type = columns.map fun c => c.type.toDynamic)
    (hb : m₁.Bounded) (hkeeps : m.Keeps m₁) :
    ∃ rows' m₂, Store.cloneRows columns rows m₁ = some (rows', m₂) ∧ m₁.Grown m₂ ∧
      List.Forall₂ (List.Forall₂ (ShowsCell m₂ (Set.Ico m₁.next m₂.next))) rows' trows := by
  induction h generalizing m₁ with
  | nil => exact ⟨[], m₁, rfl, .refl hb, .nil⟩
  | @cons row trow rows trows hrow _ ih =>
    obtain ⟨row', m₂, hclone, hgrown, hrow'⟩ :=
      cloneCells_done hrow (htypes trow List.mem_cons_self) hb hkeeps
    obtain ⟨rows', m₃, hrun, hgrown', hrows'⟩ :=
      ih (fun row hrow => htypes row (List.mem_cons_of_mem _ hrow)) hgrown.bounded
        (hkeeps.trans (hgrown.keeps hb))
    refine ⟨row' :: rows', m₃, ?_, hgrown.trans hgrown', .cons ?_ ?_⟩
    · rw [Store.cloneRows, hclone]
      show (Store.cloneRows columns rows m₂ >>= _) = _
      rw [hrun]
      rfl
    · exact hrow'.imp fun _ _ hc =>
        hc.frame (fun a ha => hgrown'.same a ha.2) fun a ha => ⟨ha.1, ha.2.trans_le hgrown'.next⟩
    · exact hrows'.imp fun _ _ hr => hr.imp fun _ _ hc =>
        hc.frame (fun _ _ => rfl) fun a ha => ⟨hgrown.next.trans ha.1, ha.2⟩

end Loops

section Clone
variable {m m₁ : Store} {P : Set ℕ} {d : Dyn} {t : DynTree}

theorem sizeOf_lt_list {ts : List DynTree} (h : t ∈ ts) : sizeOf t < sizeOf (DynTree.list ts) := by
  have := List.sizeOf_lt_of_mem h
  simp only [DynTree.list.sizeOf_spec]
  omega

theorem copies_storable (h : Shows m P d t) (hstorable : t.Storable) {fuel : ℕ}
    (hfuel : sizeOf t < fuel) :
    Copies m (Store.clone fuel) d t := by
  induction h generalizing fuel with
  | plain type data =>
    intro m₁ hb _
    obtain ⟨fuel, rfl⟩ := Nat.exists_eq_succ_of_ne_zero (Nat.ne_of_gt (Nat.zero_lt_of_lt hfuel))
    refine ⟨.plain type data, m₁, ?_, .refl hb, .plain type data⟩
    cases hstorable with
    | plain hmade =>
      -- `undef` and `none` are copied as constants, with the word 0
      cases type with
      | undef | none =>
        obtain rfl : data = 0 := hmade
        rfl
      | bool => rcases hmade with rfl | rfl <;> rfl
      | integer | unsignedInteger | float | dateTime => rfl
  | @string a s hobj ha =>
    intro m₁ hb hkeeps
    obtain ⟨fuel, rfl⟩ := Nat.exists_eq_succ_of_ne_zero (Nat.ne_of_gt (Nat.zero_lt_of_lt hfuel))
    refine ⟨_, _, ?_, Store.grown_alloc hb (.string s),
      .string (m₁.alloc_self _) ⟨Nat.le_refl _, Nat.lt_succ_self _⟩⟩
    simp only [Store.clone, hkeeps a _ hobj]
    rfl
  | @oid a s hobj ha =>
    intro m₁ hb hkeeps
    obtain ⟨fuel, rfl⟩ := Nat.exists_eq_succ_of_ne_zero (Nat.ne_of_gt (Nat.zero_lt_of_lt hfuel))
    cases hstorable with
    | oid hproper =>
      refine ⟨_, _, ?_, Store.grown_alloc hb (.oid s),
        .oid (m₁.alloc_self _) ⟨Nat.le_refl _, Nat.lt_succ_self _⟩⟩
      simp only [Store.clone, hkeeps a _ hobj, Store.mongodbOID, hproper.1, hproper.2]
      rfl
  | @list a items ts hobj ha hlen _ ih =>
    intro m₁ hb hkeeps
    obtain ⟨fuel, rfl⟩ := Nat.exists_eq_succ_of_ne_zero (Nat.ne_of_gt (Nat.zero_lt_of_lt hfuel))
    cases hstorable with
    | list hitems =>
      -- an item is smaller than its list, so the fuel that is left is enough for it
      have hcopies : List.Forall₂ (Copies m (Store.clone fuel)) items ts := by
        refine List.forall₂_iff_get.mpr ⟨hlen, fun i hi hi' => ?_⟩
        have hmem : ts[i] ∈ ts := List.getElem_mem hi'
        have hlt := sizeOf_lt_list hmem
        exact ih i _ _ (List.getElem?_eq_getElem hi) (List.getElem?_eq_getElem hi') (hitems _ hmem)
          (by omega)
      have hfill := filling_alloc hb hkeeps (.vector [])
      obtain ⟨m₂, done, hrun, hfilled, hobj₂, hdone⟩ :=
        cloneItems_done hcopies hfill (m₁.alloc_self _) .nil
      refine ⟨.shared m₁.next, m₂, ?_, hfilled.grown hb, ?_⟩
      · simp only [Store.clone, hkeeps a _ hobj]
        show (Store.cloneItems (Store.clone fuel) (.shared m₁.next) items
          (m₁.alloc (.vector [])).2 >>= _) = _
        rw [hrun]
        rfl
      · obtain ⟨hlen', hshows⟩ := List.forall₂_iff_get.mp hdone
        refine .list hobj₂ ⟨Nat.le_refl _, hfilled.filling.lt⟩ hlen' fun i x t hx ht => ?_
        obtain ⟨hi, rfl⟩ := List.getElem?_eq_some_iff.mp hx
        obtain ⟨hi', rfl⟩ := List.getElem?_eq_some_iff.mp ht
        exact (hshows i hi hi').mono fun b hb => ⟨hb.1.le, hb.2⟩
  | @dict a entries tes hobj ha hsorted hkeys _ ih =>
    intro m₁ hb hkeeps
    obtain ⟨fuel, rfl⟩ := Nat.exists_eq_succ_of_ne_zero (Nat.ne_of_gt (Nat.zero_lt_of_lt hfuel))
    cases hstorable with
    | dict hvalues =>
      have hsorted' := hsorted.of_keys hkeys
      have hcopies : List.Forall₂ (fun e te => e.1 = te.1 ∧ Copies m (Store.clone fuel) e.2 te.2)
          entries tes := by
        refine forall₂_of_get? bytesLt_strictWeak hsorted hkeys fun k x t hx ht => ?_
        have hlt := sizeOf_lt_dict ht
        obtain ⟨k', -, hmem⟩ := (get?_eq_some_iff bytesLt_strictWeak hsorted').mp ht
        exact ih k x t hx ht (hvalues _ hmem) (by omega)
      have hfill := filling_alloc hb hkeeps (.map [])
      obtain ⟨m₂, done, hrun, hfilled, hobj₂, hdone⟩ :=
        cloneEntries_done [] hcopies hsorted' hfill (m₁.alloc_self _) .nil
      refine ⟨.shared m₁.next, m₂, ?_, hfilled.grown hb, ?_⟩
      · simp only [Store.clone, hkeeps a _ hobj]
        show (Store.cloneEntries (Store.clone fuel) (.shared m₁.next) entries
          (m₁.alloc (.map [])).2 >>= _) = _
        rw [hrun]
        rfl
      · have hkeys' := keys_of_forall₂ hdone
        refine .dict hobj₂ ⟨Nat.le_refl _, hfilled.filling.lt⟩ (hsorted'.of_keys hkeys'.symm) hkeys'
          fun k x t hx ht => ?_
        exact (get?_of_forall₂ hdone hx ht).mono fun b hb => ⟨hb.1.le, hb.2⟩
  | @table a columns rows trows hobj ha hrows =>
    intro m₁ hb hkeeps
    obtain ⟨fuel, rfl⟩ := Nat.exists_eq_succ_of_ne_zero (Nat.ne_of_gt (Nat.zero_lt_of_lt hfuel))
    cases hstorable with
    | table hproper =>
      have hfill := filling_alloc hb hkeeps (.table columns rows)
      obtain ⟨rows', m₂, hrun, hgrown, hrows'⟩ :=
        cloneRows_done hrows hproper hfill.bounded hfill.keeps
      -- the new table has the old rows until the copied ones are put in
      obtain ⟨hfill₂, -, -, hsame⟩ := hfill.put hgrown (.table columns rows')
      refine ⟨.shared m₁.next, m₂.put m₁.next (.table columns rows'), ?_, ?_,
        .table (Store.put_self ..) ?_ ?_⟩
      · simp only [Store.clone, hkeeps a _ hobj]
        show (Store.cloneRows columns rows (m₁.alloc (.table columns rows)).2 >>= _) = _
        rw [hrun]
        rfl
      · exact Filled.grown hb ⟨hfill₂, hgrown.next, hsame⟩
      · exact ⟨Nat.le_refl _, hfill₂.lt⟩
      · refine hrows'.imp fun _ _ hr => hr.imp fun _ _ hc =>
          hc.frame (fun b hb => Store.put_same _ ?_) fun b hb => ?_
        · exact (Nat.lt_of_lt_of_le hfill.lt hb.1).ne'
        · exact ⟨(Nat.lt_of_lt_of_le hfill.lt hb.1).le, hb.2⟩

theorem copies_clone (h : Shows m P d t) (hclonable : t.Clonable) {fuel : ℕ}
    (hfuel : sizeOf t < fuel) :
    Copies m (Store.clone fuel) d t := copies_storable h hclonable.storable hfuel

end Clone

end Nkit
