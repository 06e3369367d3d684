import Nkit.Mapping.StructXml

/-! Element ids stand for element names: the table of ids only grows, and two paths of ids are
equal, as masks or plainly, exactly when the paths of the names are. -/

namespace Nkit
namespace Xml2Var
open OrderedMap

namespace String2IdMap

def Known (m : String2IdMap) (id : ℕ) (name : Bytes) : Prop := get? bytesLt name m.name2id = some id

structure Sane (m : String2IdMap) : Prop where
  sorted : Sorted bytesLt m.name2id
  star : m.Known starId star
  below : ∀ {id name}, m.Known id name → id < m.maxElementId
  injective : ∀ {id name name'}, m.Known id name → m.Known id name' → name = name'

def Grows (m m' : String2IdMap) : Prop := ∀ id name, m.Known id name → m'.Known id name

variable {m m' : String2IdMap} {id id' : ℕ} {name name' : Bytes}

theorem sane_create : create.Sane where
  sorted := by
    rw [create, sorted_cons]
    exact ⟨by simp, sorted_nil _⟩
  star := rfl
  below := by
    intro id name h
    simp only [Known, create, get?_cons, get?_nil] at h
    split_ifs at h
    rw [← Option.some.inj h]
    exact Nat.zero_lt_one
  injective := by
    intro id name name' h h'
    have hstar : ∀ {n : Bytes}, create.Known id n → n = Xml2Var.star := by
      intro n hn
      rw [Known, create, get?_cons_bytes (sorted_cons.mpr ⟨by simp, sorted_nil _⟩), get?_nil] at hn
      split_ifs at hn with heq
      exact heq.symm
    rw [hstar h, hstar h']

theorem Grows.refl : m.Grows m := fun _ _ h => h

theorem Grows.trans {m'' : String2IdMap} (h : m.Grows m') (h' : m'.Grows m'') :
    m.Grows m'' := fun id name hk => h' id name (h id name hk)

theorem getId_spec (hm : m.Sane) (str : Bytes) :
    (m.getId str).2.Sane ∧ m.Grows (m.getId str).2 ∧
      (m.getId str).2.Known (m.getId str).1 (Tools.cStr str) := by
  cases hget : get? bytesLt (Tools.cStr str) m.name2id with
  | some id =>
    have heq : m.getId str = (id, m) := by simp [getId, hget]
    rw [heq]
    exact ⟨hm, Grows.refl, hget⟩
  | none =>
    have heq : m.getId str = (m.maxElementId,
        ⟨update bytesLt (Tools.cStr str) m.maxElementId id m.name2id, m.maxElementId + 1⟩) :=
          by simp [getId, hget]
    have hknown : ∀ {i n}, Known (m.getId str).2 i n ↔ (Tools.cStr str = n ∧ i = m.maxElementId) ∨
        m.Known i n := by
      intro i n
      rw [heq, Known, Known, get?_update_bytes, hget]
      by_cases hn : Tools.cStr str = n
      · subst hn
        simp [hget, eq_comm]
      · simp [hn]
    refine ⟨?_, fun _ _ h => hknown.mpr (.inr h), hknown.mpr (.inl ⟨rfl, by rw [heq]⟩)⟩
    constructor
    · rw [heq]
      exact update_sorted bytesLt_strictWeak hm.sorted _ _ _
    · exact hknown.mpr (.inr hm.star)
    · intro i n h
      rw [heq]
      rcases hknown.mp h with ⟨-, rfl⟩ | h
      · exact Nat.lt_succ_self _
      · exact (hm.below h).trans (Nat.lt_succ_self _)
    · intro i n n' h h'
      rcases hknown.mp h with ⟨hn, hi⟩ | h <;> rcases hknown.mp h' with ⟨hn', hi'⟩ | h'
      · exact hn.symm.trans hn'
      · exact absurd (hm.below h') (hi ▸ Nat.lt_irrefl _)
      · exact absurd (hm.below h) (hi' ▸ Nat.lt_irrefl _)
      · exact hm.injective h h'

theorem getString_known (hm : m.Sane) (h : m.Known id name) : m.getString id = name := by
  obtain ⟨k, -, hmem⟩ := (get?_eq_some_iff bytesLt_strictWeak hm.sorted).mp h
  rw [getString]
  cases hfind : m.name2id.find? fun e => e.2 == id with
  | none => exact absurd (List.find?_eq_none.mp hfind _ hmem) (by simp)
  | some e =>
    have hknown : m.Known e.2 e.1 :=
      get?_eq_some_of_mem bytesLt_strictWeak hm.sorted (List.mem_of_find?_eq_some hfind)
    have hid : e.2 = id := by simpa using List.find?_some hfind
    exact hm.injective (hid ▸ hknown) h

theorem eq_iff (hm : m.Sane) (h : m.Known id name) (h' : m.Known id' name') :
    id = id' ↔ name = name' := by
  constructor
  · rintro rfl
    exact hm.injective h h'
  · rintro rfl
    exact Option.some.inj (h.symm.trans h')

theorem eq_starId_iff (hm : m.Sane) (h : m.Known id name) :
    id = starId ↔ name = Xml2Var.star := eq_iff hm h hm.star

end String2IdMap

structure Path.Names (m : String2IdMap) (p : Path ℕ) (q : Path Bytes) : Prop where
  isMask : p.isMask = q.isMask
  elements : List.Forall₂ m.Known p.elements q.elements
  attributeName : p.attributeName = q.attributeName

namespace Path
variable {m m' : String2IdMap} {p p' : Path ℕ} {q q' : Path Bytes} {id : ℕ} {name : Bytes}

theorem Names.grows (h : Names m p q) (hg : m.Grows m') : Names m' p q :=
  ⟨h.isMask, h.elements.imp hg, h.attributeName⟩

theorem names_empty : Names m .empty .empty := ⟨rfl, .nil, rfl⟩

theorem Names.push (hm : m.Sane) (h : Names m p q) (hk : m.Known id name) :
    Names m (p.push String2IdMap.starId id) (q.push star name) where
  isMask := by
    have hstar := String2IdMap.eq_starId_iff hm hk
    rw [Path.push, Path.push, h.isMask]
    simp only [beq_eq_decide, hstar]
  elements := List.rel_append h.elements (.cons hk .nil)
  attributeName := h.attributeName

theorem Names.append (hm : m.Sane) (h : Names m p q) (h' : Names m p' q') :
    Option.Rel (Names m) (p.append String2IdMap.starId p') (q.append star q') := by
  rw [Path.append, Path.append, h.attributeName]
  split_ifs with hattr
  · have hfold : ∀ {ids : List ℕ} {names : List Bytes}, List.Forall₂ m.Known ids names →
      ∀ {p q}, Names m p q →
        Names m (ids.foldl (fun p id => p.push String2IdMap.starId id) p)
          (names.foldl (fun q name => q.push star name) q) := by
      intro ids names hall
      induction hall with
      | nil => exact fun h => h
      | cons hk _ ih => exact fun h => ih (h.push hm hk)
    have hall := hfold h'.elements h
    exact .some ⟨hall.isMask, hall.elements, h'.attributeName⟩
  · exact .none

theorem Names.bubbleUp (h : Names m p q) : Names m p.bubbleUp q.bubbleUp := by
  refine ⟨h.isMask, ?_, h.attributeName⟩
  rw [Path.bubbleUp, Path.bubbleUp, List.dropLast_eq_take, List.dropLast_eq_take,
    h.elements.length_eq]
  exact List.forall₂_take _ h.elements

theorem elements_eq_iff (hm : m.Sane) {ids ids' : List ℕ} {names names' : List Bytes}
    (h : List.Forall₂ m.Known ids names) (h' : List.Forall₂ m.Known ids' names') :
    ids = ids' ↔ names = names' := by
  induction h generalizing ids' names' with
  | nil =>
    cases h' with
    | nil => simp
    | cons => simp
  | cons hk _ ih =>
    cases h' with
    | nil => simp
    | cons hk' h' => rw [List.cons_eq_cons, List.cons_eq_cons, String2IdMap.eq_iff hm hk hk', ih h']

theorem Names.same (hm : m.Sane) (h : Names m p q) (h' : Names m p' q') :
    p.same String2IdMap.starId p' = q.same star q' := by
  have helems := elements_eq_iff hm h.elements h'.elements
  have hzip : ∀ {ids ids' : List ℕ} {names names' : List Bytes}, List.Forall₂ m.Known ids names →
      List.Forall₂ m.Known ids' names' →
      ((ids.zip ids').all fun e => compare String2IdMap.starId e.1 e.2) =
        ((names.zip names').all fun e => compare star e.1 e.2) := by
    intro ids ids' names names' hall hall'
    induction hall generalizing ids' names' with
    | nil => simp
    | cons hk _ ih =>
      cases hall' with
      | nil => simp
      | @cons id' name' _ _ hk' hall' =>
        rw [List.zip_cons_cons, List.zip_cons_cons, List.all_cons, List.all_cons, ih hall']
        congr 1
        simp only [compare, Bool.beq_eq_decide_eq, String2IdMap.eq_starId_iff hm hk,
          String2IdMap.eq_starId_iff hm hk', String2IdMap.eq_iff hm hk hk']
  rw [Path.same, Path.same, h.isMask, h'.isMask, h.elements.length_eq, h'.elements.length_eq,
    hzip h.elements h'.elements]
  simp only [Bool.beq_eq_decide_eq, helems]

/-- The constructor of `Path`, without ids. -/
def named (pathSpec : Bytes) : Path Bytes :=
  let (names, attr) := splitPath pathSpec
  { names.foldl (fun path name => path.push star (Tools.cStr name)) Path.empty with
    attributeName := attr }

def lastElementName (q : Path Bytes) : Bytes := q.elements.getLast?.getD []

theorem parse_names (hm : m.Sane) (pathSpec : Bytes) :
    (Path.parse pathSpec m).2.Sane ∧ m.Grows (Path.parse pathSpec m).2 ∧
      Names (Path.parse pathSpec m).2 (Path.parse pathSpec m).1 (named pathSpec) := by
  have hfold : ∀ (names : List Bytes) {m p q}, String2IdMap.Sane m → Names m p q →
      let r := names.foldl (fun acc name =>
        (acc.1.push String2IdMap.starId (String2IdMap.getId name acc.2).1,
          (String2IdMap.getId name acc.2).2)) (p, m)
      r.2.Sane ∧ m.Grows r.2 ∧
        Names r.2 r.1 (names.foldl (fun path name => path.push star (Tools.cStr name)) q) := by
    intro names
    induction names with
    | nil => exact fun hm h => ⟨hm, String2IdMap.Grows.refl, h⟩
    | cons name names ih =>
      intro m p q hm h
      obtain ⟨hm₁, hg₁, hk⟩ := String2IdMap.getId_spec hm name
      obtain ⟨hm₂, hg₂, h₂⟩ := ih hm₁ ((h.grows hg₁).push hm₁ hk)
      exact ⟨hm₂, hg₁.trans hg₂, h₂⟩
  obtain ⟨hm', hg, h⟩ := hfold (splitPath pathSpec).1 hm names_empty
  exact ⟨hm', hg, h.isMask, h.elements, rfl⟩

theorem Names.getLastElementName (hm : m.Sane) (h : Names m p q) :
    p.getLastElementName m = q.lastElementName := by
  have hlast := List.rel_reverse h.elements
  rw [Path.getLastElementName, lastElementName, List.getLast?_eq_head?_reverse,
    List.getLast?_eq_head?_reverse]
  generalize p.elements.reverse = ids, q.elements.reverse = names at hlast ⊢
  cases hlast with
  | nil => rfl
  | cons hk _ => exact String2IdMap.getString_known hm hk

end Path

end Xml2Var
end Nkit
