import Nkit.Dynamic.Objects
import Mathlib.Data.Set.Insert

/-! What a handle stands for.  A value is read off the objects without touching a set of
owned addresses, those that are still being written; nothing that happens to owned
addresses changes it. -/

namespace Nkit
open OrderedMap

inductive Value where
  | str (s : Bytes)
  | list (items : List Value)
  | dict (map : List (Bytes × Value))
deriving Repr

def Value.isList : Value → Bool
  | list _ => true
  | _ => false

/-- The handle stands for the value, through objects outside `O`. -/
inductive Reads (m : Objects) (O : Set ℕ) : Handle → Value → Prop where
  | str {a : ℕ} {s : Bytes} (hobj : m.objs a = some (.str s)) (hfree : a ∉ O) :
      Reads m O (some a) (.str s)
  | list {a : ℕ} {items : List Handle} {vs : List Value} (hobj : m.objs a = some (.list items))
      (hfree : a ∉ O) (hlen : items.length = vs.length)
      (hitems : ∀ (i : ℕ) (r : Handle) (v : Value), items[i]? = some r → vs[i]? = some v →
        Reads m O r v) :
      Reads m O (some a) (.list vs)
  | dict {a : ℕ} {map : List (Bytes × Handle)} {vm : List (Bytes × Value)}
      (hobj : m.objs a = some (.dict map)) (hfree : a ∉ O)
      (hkeys : map.map Prod.fst = vm.map Prod.fst)
      (hvalues : ∀ (i : ℕ) (e : Bytes × Handle) (e' : Bytes × Value),
        map[i]? = some e → vm[i]? = some e' → Reads m O e.2 e'.2) :
      Reads m O (some a) (.dict vm)

/-- Addresses are handed out in order. -/
def Objects.Bounded (m : Objects) : Prop := ∀ a, m.next ≤ a → m.objs a = none

/-- Only new addresses and those in `T` are written. -/
structure Touches (T : Set ℕ) (m m' : Objects) : Prop where
  next : m.next ≤ m'.next
  same : ∀ a, a < m.next → a ∉ T → m'.objs a = m.objs a

/-- Addresses in `O'` are in `O` or new. -/
def Within (m : Objects) (O O' : Set ℕ) : Prop := ∀ a ∈ O', a ∈ O ∨ m.next ≤ a

variable {m m' m'' : Objects} {O O' T T' : Set ℕ} {r : Handle} {v : Value}

theorem Touches.refl (T : Set ℕ) (m : Objects) : Touches T m m := ⟨le_rfl, fun _ _ _ => rfl⟩

theorem Touches.trans (h : Touches T m m') (h' : Touches T' m' m'') (hT : Within m T T') :
    Touches T m m'' := by
  refine ⟨h.next.trans h'.next, fun a ha haT => ?_⟩
  have haT' : a ∉ T' := by
    intro hin
    rcases hT a hin with hold | hnew
    · exact haT hold
    · exact absurd ha (Nat.not_lt.mpr hnew)
  rw [h'.same a (ha.trans_le h.next) haT', h.same a ha haT]

theorem Touches.mono (h : Touches T m m') (hT : T ⊆ T') : Touches T' m m' :=
  ⟨h.next, fun a ha haT => h.same a ha fun hin => haT (hT hin)⟩

theorem Within.of_subset (h : O' ⊆ O) : Within m O O' := fun _ ha => .inl (h ha)

theorem Within.not_mem (hw : Within m O O') {a : ℕ} (hlt : a < m.next) (ha : a ∉ O) : a ∉ O' := by
  intro hin
  rcases hw a hin with hO | hnew
  · exact ha hO
  · exact absurd hlt (Nat.not_lt.mpr hnew)

theorem Objects.Bounded.lt (hb : m.Bounded) {a : ℕ} {o : Obj} (hobj : m.objs a = some o) :
    a < m.next := by
  by_contra hge
  rw [hb a (Nat.not_lt.mp hge)] at hobj
  cases hobj

theorem Touches.objs (ht : Touches T m m') (hb : m.Bounded) {a : ℕ} {o : Obj} (ha : a ∉ T)
    (hobj : m.objs a = some o) : m'.objs a = some o := by
  rw [ht.same a (hb.lt hobj) ha, hobj]

theorem Reads.evolve (h : Reads m O r v) (hb : m.Bounded) (ht : Touches O m m')
    (hw : Within m O O') :
    Reads m' O' r v := by
  induction h with
  | str hobj hfree => exact .str (ht.objs hb hfree hobj) (hw.not_mem (hb.lt hobj) hfree)
  | list hobj hfree hlen _ ih =>
    exact .list (ht.objs hb hfree hobj) (hw.not_mem (hb.lt hobj) hfree) hlen ih
  | dict hobj hfree hkeys _ ih =>
    exact .dict (ht.objs hb hfree hobj) (hw.not_mem (hb.lt hobj) hfree) hkeys ih

theorem Reads.of_items {a : ℕ} {items : List Handle} {vs : List Value}
    (hobj : m.objs a = some (.list items)) (hfree : a ∉ O)
    (hitems : List.Forall₂ (Reads m O) items vs) :
    Reads m O (some a) (.list vs) := by
  refine .list hobj hfree hitems.length_eq fun i r v hr hv => ?_
  obtain ⟨hi, rfl⟩ := List.getElem?_eq_some_iff.mp hr
  obtain ⟨hi', rfl⟩ := List.getElem?_eq_some_iff.mp hv
  exact hitems.get hi hi'

theorem Reads.of_entries {a : ℕ} {map : List (Bytes × Handle)} {vm : List (Bytes × Value)}
    (hobj : m.objs a = some (.dict map)) (hfree : a ∉ O)
    (hentries : List.Forall₂ (fun e e' => e.1 = e'.1 ∧ Reads m O e.2 e'.2) map vm) :
    Reads m O (some a) (.dict vm) := by
  refine .dict hobj hfree ?_ fun i e e' he he' => ?_
  · clear hobj
    induction hentries with
    | nil => rfl
    | cons he _ ih => rw [List.map_cons, List.map_cons, he.1, ih]
  · obtain ⟨hi, rfl⟩ := List.getElem?_eq_some_iff.mp he
    obtain ⟨hi', rfl⟩ := List.getElem?_eq_some_iff.mp he'
    exact (hentries.get hi hi').2

theorem Reads.unique (h : Reads m O r v) {v' : Value} (h' : Reads m O r v') : v = v' := by
  induction h generalizing v' with
  | str hobj _ =>
    cases h' with
    | str hobj' _ => rw [hobj] at hobj'; cases hobj'; rfl
    | list hobj' _ _ _ => rw [hobj] at hobj'; cases hobj'
    | dict hobj' _ _ _ => rw [hobj] at hobj'; cases hobj'
  | list hobj _ hlen _ ih =>
    cases h' with
    | str hobj' _ => rw [hobj] at hobj'; cases hobj'
    | list hobj' _ hlen' hitems' =>
      rw [hobj] at hobj'
      cases hobj'
      refine congrArg Value.list (List.ext_getElem (hlen.symm.trans hlen') fun i hi hi' => ?_)
      have hlt : i < _ := hlen ▸ hi
      exact ih i _ _ (List.getElem?_eq_getElem hlt) (List.getElem?_eq_getElem hi)
        (hitems' i _ _ (List.getElem?_eq_getElem hlt) (List.getElem?_eq_getElem hi'))
    | dict hobj' _ _ _ => rw [hobj] at hobj'; cases hobj'
  | dict hobj _ hkeys _ ih =>
    cases h' with
    | str hobj' _ => rw [hobj] at hobj'; cases hobj'
    | list hobj' _ _ _ => rw [hobj] at hobj'; cases hobj'
    | dict hobj' _ hkeys' hvalues' =>
      rw [hobj] at hobj'
      cases hobj'
      have hfst := hkeys.symm.trans hkeys'
      have hlen := congrArg List.length hfst
      rw [List.length_map, List.length_map] at hlen
      refine congrArg Value.dict (List.ext_getElem hlen fun i hi hi' => Prod.ext ?_ ?_)
      · have hi_eq := congrArg (·[i]?) hfst
        simpa [hi, hi'] using hi_eq
      · have hmap := congrArg List.length hkeys
        rw [List.length_map, List.length_map] at hmap
        have hlt : i < _ := hmap ▸ hi
        exact ih i _ _ (List.getElem?_eq_getElem hlt) (List.getElem?_eq_getElem hi)
          (hvalues' i _ _ (List.getElem?_eq_getElem hlt) (List.getElem?_eq_getElem hi'))

theorem Objects.alloc_objs (m : Objects) (o : Obj) : (m.alloc o).2.objs m.next = some o :=
  Function.update_self ..

theorem Objects.Bounded.alloc (hb : m.Bounded) (o : Obj) : (m.alloc o).2.Bounded := by
  intro a ha
  have hne : a ≠ m.next := by
    intro h
    subst h
    exact absurd ha (Nat.not_succ_le_self _)
  show Function.update m.objs m.next (some o) a = none
  rw [Function.update_of_ne hne]
  exact hb a (Nat.le_of_succ_le ha)

theorem touches_alloc (T : Set ℕ) (m : Objects) (o : Obj) : Touches T m (m.alloc o).2 := by
  refine ⟨Nat.le_succ _, fun a ha _ => ?_⟩
  show Function.update m.objs m.next (some o) a = m.objs a
  rw [Function.update_of_ne ha.ne]

theorem Objects.put_objs (m : Objects) (a : ℕ) (o : Obj) : (m.put a o).objs a = some o :=
  Function.update_self ..

theorem Objects.put_objs_ne {a b : ℕ} (hne : b ≠ a) (o : Obj) : (m.put a o).objs b = m.objs b :=
  Function.update_of_ne hne ..

theorem Objects.Bounded.put (hb : m.Bounded) {a : ℕ} (ha : a < m.next) (o : Obj) :
    (m.put a o).Bounded := by
  intro b hle
  have hlt : a < b := Nat.lt_of_lt_of_le ha hle
  rw [Objects.put_objs_ne hlt.ne']
  exact hb b hle

theorem touches_put {a : ℕ} (ha : a ∈ T) (o : Obj) : Touches T m (m.put a o) := by
  refine ⟨le_rfl, fun b _ hb => ?_⟩
  have hne : b ≠ a := by
    rintro rfl
    exact hb ha
  exact Objects.put_objs_ne hne o

theorem editString_eq {a : ℕ} {s : Bytes} (hobj : m.objs a = some (.str s)) (f : Bytes → Bytes) :
    m.editString f (some a) = m.put a (.str (f s)) := by
  simp only [Objects.editString, Objects.get, Option.bind_some, hobj]

theorem dictSet_eq {a : ℕ} {d : List (Bytes × Handle)} (hobj : m.objs a = some (.dict d))
    (key : Bytes) (value : Handle) :
    m.dictSet key value (some a) =
      m.put a (.dict (update bytesLt key none (fun _ => value) d)) := by
  simp only [Objects.dictSet, Objects.get, Option.bind_some, hobj]

theorem pushBack_eq {a : ℕ} {items : List Handle} (hobj : m.objs a = some (.list items))
    (item : Handle) :
    m.pushBack item (some a) = m.put a (.list (items ++ [item])) := by
  simp only [Objects.pushBack, Objects.get, Option.bind_some, hobj]

theorem dlist_eq (hb : m.Bounded) (item : Handle) :
    ∃ m₁, m.dlist item = (some m.next, m₁) ∧ m₁.objs m.next = some (.list [item]) ∧
      m.next < m₁.next ∧
      Touches ∅ m m₁ ∧ m₁.Bounded := by
  have halloc := m.alloc_objs (.list [])
  refine ⟨(m.alloc (.list [])).2.put m.next (.list [item]), ?_, Objects.put_objs ..,
    Nat.lt_succ_self _, ?_, ?_⟩
  · have hpush := pushBack_eq halloc item
    rw [List.nil_append] at hpush
    rw [Objects.dlist, ← hpush]
    rfl
  · refine (touches_alloc ∅ m (.list [])).trans (touches_put (Set.mem_singleton m.next) _) ?_
    intro a ha
    exact .inr (Set.mem_singleton_iff.mp ha).ge
  · exact (hb.alloc _).put (Nat.lt_succ_self _) _

inductive Slot where
  | value (v : Value)
  | owned (a : ℕ) (vs : List Value)

namespace Slot

def val : Slot → Value
  | value v => v
  | owned _ vs => .list vs

def addrs : Slot → List ℕ
  | value _ => []
  | owned a _ => [a]

end Slot

def values (es : List (Bytes × Slot)) : List (Bytes × Value) := es.map fun e => (e.1, e.2.val)

def ownedLists (es : List (Bytes × Slot)) : List ℕ := es.flatMap fun e => e.2.addrs

def OpenSlot (m : Objects) (O : Set ℕ) (r : Handle) : Slot → Prop
  | .value v => v.isList = false ∧ Reads m O r v
  | .owned a vs =>
    r = some a ∧ ∃ items, m.objs a = some (.list items) ∧ List.Forall₂ (Reads m O) items vs

def OpenEntry (m : Objects) (O : Set ℕ) (e : Bytes × Handle) (e' : Bytes × Slot) : Prop :=
  e.1 = e'.1 ∧ OpenSlot m O e.2 e'.2

/-- The object at `A` is a dict with these entries, and it and its lists are owned. -/
structure OpenDict (m : Objects) (O : Set ℕ) (A : ℕ) (es : List (Bytes × Slot)) : Prop where
  obj : ∃ d, m.objs A = some (.dict d) ∧ List.Forall₂ (OpenEntry m O) d es
  sorted : Sorted bytesLt es
  owned : ∀ a ∈ A :: ownedLists es, a ∈ O
  nodup : (A :: ownedLists es).Nodup

theorem OpenSlot.evolve {slot : Slot} (h : OpenSlot m O r slot) (hb : m.Bounded)
    (ht : Touches O m m') (hw : Within m O O') (hsame : ∀ a ∈ slot.addrs, m'.objs a = m.objs a) :
    OpenSlot m' O' r slot := by
  cases slot with
  | value v => exact ⟨h.1, h.2.evolve hb ht hw⟩
  | owned a vs =>
    obtain ⟨hr, items, hobj, hitems⟩ := h
    refine ⟨hr, items, ?_, hitems.imp fun _ _ h => h.evolve hb ht hw⟩
    rw [hsame a (List.mem_singleton_self a)]
    exact hobj

theorem mem_ownedLists {es : List (Bytes × Slot)} {e : Bytes × Slot} (he : e ∈ es) {a : ℕ}
    (ha : a ∈ e.2.addrs) : a ∈ ownedLists es := List.mem_flatMap.mpr ⟨e, he, ha⟩

theorem OpenEntry.evolve {d : List (Bytes × Handle)} {es : List (Bytes × Slot)}
    (h : List.Forall₂ (OpenEntry m O) d es) (hb : m.Bounded) (ht : Touches O m m')
    (hw : Within m O O') (hsame : ∀ a ∈ ownedLists es, m'.objs a = m.objs a) :
    List.Forall₂ (OpenEntry m' O') d es := by
  rw [List.forall₂_iff_zip] at h ⊢
  refine ⟨h.1, fun {e e'} he => ?_⟩
  obtain ⟨hkey, hslot⟩ := h.2 he
  exact ⟨hkey, hslot.evolve hb ht hw fun a ha => hsame a (mem_ownedLists (List.of_mem_zip he).2 ha)⟩

theorem OpenDict.evolve {A : ℕ} {es : List (Bytes × Slot)} (h : OpenDict m O A es) (hb : m.Bounded)
    (ht : Touches O m m') (hw : Within m O O')
    (hsame : ∀ a ∈ A :: ownedLists es, m'.objs a = m.objs a ∧ a ∈ O') : OpenDict m' O' A es := by
  obtain ⟨d, hobj, hes⟩ := h.obj
  refine ⟨⟨d, ?_, ?_⟩, h.sorted, fun a ha => (hsame a ha).2, h.nodup⟩
  · rw [(hsame A List.mem_cons_self).1]
    exact hobj
  · exact OpenEntry.evolve hes hb ht hw fun a ha => (hsame a (List.mem_cons_of_mem _ ha)).1

theorem OpenDict.close {A : ℕ} {es : List (Bytes × Slot)} (h : OpenDict m O A es) (hb : m.Bounded)
    (hw : Within m O O') (hgone : ∀ a ∈ A :: ownedLists es, a ∉ O') :
    Reads m O' (some A) (.dict (values es)) := by
  obtain ⟨d, hobj, hes⟩ := h.obj
  refine Reads.of_entries hobj (hgone A List.mem_cons_self) ?_
  rw [values, List.forall₂_map_right_iff]
  rw [List.forall₂_iff_zip] at hes ⊢
  refine ⟨hes.1, fun {e e'} he => ?_⟩
  obtain ⟨hkey, hslot⟩ := hes.2 he
  refine ⟨hkey, ?_⟩
  obtain ⟨k, slot⟩ := e'
  cases slot with
  | value v => exact hslot.2.evolve hb (Touches.refl _ _) hw
  | owned a vs =>
    obtain ⟨hr, items, hlist, hitems⟩ := hslot
    have ha : a ∈ ownedLists es := mem_ownedLists (List.of_mem_zip he).2 (List.mem_singleton_self a)
    rw [hr]
    exact Reads.of_items hlist (hgone a (List.mem_cons_of_mem _ ha))
      (hitems.imp fun _ _ h => h.evolve hb (Touches.refl _ _) hw)

theorem ownedLists_append (pre post : List (Bytes × Slot)) :
    ownedLists (pre ++ post) = ownedLists pre ++ ownedLists post := List.flatMap_append

theorem ownedLists_insert (pre post : List (Bytes × Slot)) (e : Bytes × Slot) :
    ownedLists (pre ++ e :: post) = ownedLists pre ++ (e.2.addrs ++ ownedLists post) := by
  rw [ownedLists_append, ownedLists, ownedLists, ownedLists, List.flatMap_cons]

def Slot.Fits (slot : Slot) (key : Bytes) (A : ℕ) (es : List (Bytes × Slot)) : Prop :=
  ∀ a ∈ slot.addrs, a ∉ A :: ownedLists es ∨ ∃ vs, get? bytesLt key es = some (.owned a vs)

theorem Slot.Fits.place {slot : Slot} {key : Bytes} {A : ℕ} {es pre post : List (Bytes × Slot)}
    {mid : List ℕ} (hfits : slot.Fits key A es)
    (hes : ownedLists es = ownedLists pre ++ (mid ++ ownedLists post))
    (hmid : ∀ a vs, get? bytesLt key es = some (.owned a vs) → mid = [a])
    (hnodup : (A :: ownedLists es).Nodup) :
    (A :: (ownedLists pre ++ (slot.addrs ++ ownedLists post))).Nodup ∧
      ∀ a, a ∈ ownedLists pre ∨ a ∈ ownedLists post → a ∉ slot.addrs := by
  rw [hes] at hnodup
  cases slot with
  | value v =>
    refine ⟨hnodup.sublist ?_, fun _ _ => List.not_mem_nil⟩
    exact ((List.sublist_append_right _ _).append_left _).cons_cons _
  | owned b ws =>
    rcases hfits b (List.mem_singleton_self b) with hfresh | ⟨vs, hget⟩
    · rw [hes] at hfresh
      simp only [Slot.addrs, List.mem_cons, List.mem_append, not_or] at hfresh ⊢
      simp only [List.nodup_cons, List.nodup_append, List.mem_append, List.mem_cons] at hnodup ⊢
      grind
    · obtain rfl := hmid b vs hget
      simp only [Slot.addrs] at hnodup ⊢
      refine ⟨hnodup, fun a ha hab => ?_⟩
      obtain rfl := List.mem_singleton.mp hab
      simp only [List.nodup_cons, List.nodup_append, List.mem_append, List.mem_cons] at hnodup
      grind

section Set
variable {A : ℕ} {es : List (Bytes × Slot)} {d : List (Bytes × Handle)} {key : Bytes} {slot : Slot}

/-- Where the entry under a key goes, on both levels; `mid` is what the entry it replaces owned. -/
theorem OpenEntry.place (h : List.Forall₂ (OpenEntry m O) d es) (key : Bytes) (r : Handle)
    (slot : Slot) :
    ∃ pre post pre' post' mid k, update bytesLt key none (fun _ => r) d = pre ++ (k, r) :: post ∧
      update bytesLt key slot (fun _ => slot) es = pre' ++ (k, slot) :: post' ∧
      List.Forall₂ (OpenEntry m O) pre pre' ∧ List.Forall₂ (OpenEntry m O) post post' ∧
      ownedLists es = ownedLists pre' ++ (mid ++ ownedLists post') ∧
      ∀ a vs, get? bytesLt key es = some (.owned a vs) → mid = [a] := by
  have hplace : Located bytesLt key (OpenEntry m O) d es := located (fun _ _ he => he.1) key h
  clear h
  cases hplace with
  | found pre post pre' post' hpre he hpost hget hget' hset hset' =>
    rename_i e e'
    refine ⟨pre, post, pre', post', e'.2.addrs, e'.1, ?_, hset' _ _, hpre, hpost,
      ownedLists_insert .., ?_⟩
    · rw [hset, he.1]
    · intro a vs hfound
      rw [hget'] at hfound
      rw [Option.some.inj hfound]
      rfl
  | absent pre post pre' post' hpre hpost hget hget' hset hset' =>
    refine ⟨pre, post, pre', post', [], key, hset _ _, hset' _ _, hpre, hpost, ownedLists_append ..,
      ?_⟩
    intro a vs hfound
    rw [hget'] at hfound
    cases hfound

theorem OpenDict.set (h : OpenDict m O A es) (hb : m.Bounded) (ht : Touches O m m')
    (hw : Within m O O') (hd : m.objs A = some (.dict d))
    (hd' : m'.objs A = some (.dict (update bytesLt key none (fun _ => r) d)))
    (hslot : OpenSlot m' O' r slot) (hfits : slot.Fits key A es)
    (hsame : ∀ a ∈ ownedLists es, a ∉ slot.addrs → m'.objs a = m.objs a)
    (hO' : ∀ a ∈ A :: slot.addrs ++ ownedLists es, a ∈ O') :
    OpenDict m' O' A (update bytesLt key slot (fun _ => slot) es) ∧
      ∀ a ∈ ownedLists (update bytesLt key slot (fun _ => slot) es),
        a ∈ slot.addrs ++ ownedLists es := by
  obtain ⟨d₀, hobj, hes⟩ := h.obj
  obtain rfl : d₀ = d := by
    rw [hd] at hobj
    cases hobj
    rfl
  have hsorted := update_sorted bytesLt_strictWeak h.sorted key slot fun _ => slot
  obtain ⟨pre, post, pre', post', mid, k, hset, hset', hpre, hpost, hlists, hmid⟩ :=
    OpenEntry.place hes key r slot
  rw [hset] at hd'
  rw [hset'] at hsorted ⊢
  obtain ⟨hnodup, hother⟩ := hfits.place hlists hmid h.nodup
  have hmem : ∀ a ∈ ownedLists (pre' ++ (k, slot) :: post'), a ∈ slot.addrs ++ ownedLists es := by
    intro a ha
    rw [ownedLists_insert] at ha
    rw [hlists]
    simp only [List.mem_append] at ha ⊢
    tauto
  have hrest : ∀ a, a ∈ ownedLists pre' ∨ a ∈ ownedLists post' → m'.objs a = m.objs a := by
    intro a ha
    refine hsame a ?_ (hother a ha)
    rw [hlists]
    simp only [List.mem_append]
    tauto
  refine ⟨⟨⟨_, hd', ?_⟩, hsorted, ?_, ?_⟩, hmem⟩
  · refine List.rel_append (OpenEntry.evolve hpre hb ht hw fun a ha => hrest a (.inl ha)) ?_
    exact .cons ⟨rfl, hslot⟩ (OpenEntry.evolve hpost hb ht hw fun a ha => hrest a (.inr ha))
  · intro a ha
    rcases List.mem_cons.mp ha with rfl | ha
    · exact hO' a List.mem_cons_self
    · exact hO' a (List.mem_cons_of_mem _ (hmem a ha))
  · rw [ownedLists_insert]
    exact hnodup

end Set

structure Tracks (m : Objects) (O : Set ℕ) : Prop where
  bounded : m.Bounded
  live : ∀ a ∈ O, a < m.next

structure DictStep (m : Objects) (O : Set ℕ) (A : ℕ) (es : List (Bytes × Slot)) (m' : Objects)
    (es' : List (Bytes × Slot)) : Prop where
  dict : OpenDict m' (O ∪ {a | a ∈ ownedLists es'}) A es'
  lists : ∀ a ∈ ownedLists es', a ∈ ownedLists es ∨ m.next ≤ a
  touches : Touches {a | a ∈ A :: ownedLists es} m m'
  tracks : Tracks m' (O ∪ {a | a ∈ ownedLists es'})

section DictStep
variable {A : ℕ} {es es' es'' : List (Bytes × Slot)}

theorem OpenDict.shrink (h : OpenDict m O A es) (hb : m.Bounded) (hO' : O' ⊆ O)
    (hown : ∀ a ∈ A :: ownedLists es, a ∈ O') : OpenDict m O' A es :=
  h.evolve hb (Touches.refl _ _) (Within.of_subset hO') fun a ha => ⟨rfl, hown a ha⟩

theorem DictStep.refl (h : OpenDict m O A es) (hm : Tracks m O) : DictStep m O A es m es := by
  have hO : O ∪ {a | a ∈ ownedLists es} = O :=
    Set.union_eq_left.mpr fun a ha => h.owned a (List.mem_cons_of_mem _ ha)
  refine ⟨?_, fun a ha => .inl ha, Touches.refl _ _, ?_⟩
  · rw [hO]
    exact h
  · rw [hO]
    exact hm

theorem DictStep.trans (h : DictStep m O A es m' es')
    (h' : DictStep m' (O ∪ {a | a ∈ ownedLists es'}) A es' m'' es'') (hA : A ∈ O) :
    DictStep m O A es m'' es'' := by
  have hsub : O ∪ {a | a ∈ ownedLists es''} ⊆ O ∪ {a | a ∈ ownedLists es'} ∪
      {a | a ∈ ownedLists es''} :=
    Set.union_subset_union_left _ Set.subset_union_left
  have hlists : ∀ a ∈ ownedLists es'', a ∈ ownedLists es ∨ m.next ≤ a := by
    intro a ha
    rcases h'.lists a ha with ha | ha
    · exact h.lists a ha
    · exact .inr (h.touches.next.trans ha)
  refine ⟨h'.dict.shrink h'.tracks.bounded hsub ?_, hlists, ?_, ⟨h'.tracks.bounded, ?_⟩⟩
  · intro a ha
    rcases List.mem_cons.mp ha with rfl | ha
    · exact .inl hA
    · exact .inr ha
  · refine h.touches.trans h'.touches fun a ha => ?_
    rcases List.mem_cons.mp ha with rfl | ha
    · exact .inl List.mem_cons_self
    · exact (h.lists a ha).imp_left (List.mem_cons_of_mem _)
  · exact fun a ha => h'.tracks.live a (hsub ha)

theorem Tracks.fresh (hm : Tracks m O) (ht : Touches T m m') (hb : m'.Bounded) : Tracks m' O :=
  ⟨hb, fun a ha => (hm.live a ha).trans_le ht.next⟩

theorem OpenDict.fresh (h : OpenDict m O A es) (hm : Tracks m O) (ht : Touches ∅ m m') :
    OpenDict m' O A es := by
  refine h.evolve hm.bounded (ht.mono (Set.empty_subset O)) (Within.of_subset subset_rfl)
    fun a ha => ?_
  have hO := h.owned a ha
  exact ⟨ht.same a (hm.live a hO) (Set.notMem_empty a), hO⟩

theorem DictStep.fresh (ht : Touches ∅ m m') (h : DictStep m' O A es m'' es') :
    DictStep m O A es m'' es' := by
  refine ⟨h.dict, fun a ha => (h.lists a ha).imp_right ht.next.trans, ?_, h.tracks⟩
  exact (ht.mono (Set.empty_subset _)).trans h.touches (Within.of_subset subset_rfl)

theorem mem_ownedLists_of_get? {key : Bytes} (hs : Sorted bytesLt es) {a : ℕ} {vs : List Value}
    (hget : get? bytesLt key es = some (.owned a vs)) : a ∈ ownedLists es := by
  obtain ⟨k, _, hmem⟩ := (get?_eq_some_iff bytesLt_strictWeak hs).mp hget
  exact mem_ownedLists hmem (List.mem_singleton_self a)

theorem DictStep.of_set {d : List (Bytes × Handle)} {key : Bytes} {slot : Slot}
    (h : OpenDict m O A es) (hm : Tracks m O) (ht : Touches {a | a ∈ A :: ownedLists es} m m')
    (hb' : m'.Bounded) (hd : m.objs A = some (.dict d))
    (hd' : m'.objs A = some (.dict (update bytesLt key none (fun _ => r) d)))
    (hslot : OpenSlot m' (O ∪ {a | a ∈ slot.addrs}) r slot)
    (hnew : ∀ a ∈ slot.addrs, a < m'.next ∧
      (m.next ≤ a ∨ ∃ vs, get? bytesLt key es = some (.owned a vs)))
    (hsame : ∀ a ∈ ownedLists es, a ∉ slot.addrs → m'.objs a = m.objs a) :
    DictStep m O A es m' (update bytesLt key slot (fun _ => slot) es) := by
  -- a list in the slot is the one the key had or a new one
  have hfits : slot.Fits key A es := by
    intro a ha
    refine (hnew a ha).2.imp_left fun hge hin => ?_
    exact absurd (hm.live a (h.owned a hin)) (Nat.not_lt.mpr hge)
  have hold : ∀ a ∈ slot.addrs, a ∈ ownedLists es ∨ m.next ≤ a := by
    intro a ha
    rcases (hnew a ha).2 with hge | ⟨vs, hget⟩
    · exact .inr hge
    · exact .inl (mem_ownedLists_of_get? h.sorted hget)
  have hw : Within m O (O ∪ {a | a ∈ slot.addrs}) := by
    rintro a (ha | ha)
    · exact .inl ha
    · exact (hold a ha).imp_left fun hin => h.owned a (List.mem_cons_of_mem _ hin)
  obtain ⟨hdict, hmem⟩ := h.set hm.bounded (ht.mono h.owned) hw hd hd' hslot hfits hsame (by
    intro a ha
    simp only [List.cons_append, List.mem_cons, List.mem_append] at ha
    rcases ha with rfl | ha | ha
    · exact .inl (h.owned a List.mem_cons_self)
    · exact .inr ha
    · exact .inl (h.owned a (List.mem_cons_of_mem _ ha)))
  have hsub : O ∪ {a | a ∈ ownedLists (update bytesLt key slot (fun _ => slot) es)} ⊆
      O ∪ {a | a ∈ slot.addrs} := by
    rintro a (ha | ha)
    · exact .inl ha
    · rcases List.mem_append.mp (hmem a ha) with hin | hin
      · exact .inr hin
      · exact .inl (h.owned a (List.mem_cons_of_mem _ hin))
  refine ⟨hdict.shrink hb' hsub ?_, ?_, ht, hb', ?_⟩
  · intro a ha
    rcases List.mem_cons.mp ha with rfl | ha
    · exact .inl (h.owned a List.mem_cons_self)
    · exact .inr ha
  · intro a ha
    rcases List.mem_append.mp (hmem a ha) with hin | hin
    · exact hold a hin
    · exact .inl hin
  · intro a ha
    rcases hsub ha with hin | hin
    · exact (hm.live a hin).trans_le ht.next
    · exact (hnew a hin).1

/-- `dict[key] = value`. -/
theorem DictStep.store (h : OpenDict m O A es) (hm : Tracks m O) (hr : Reads m O r v)
    (hv : v.isList = false) (key : Bytes) :
    DictStep m O A es (m.dictSet key r (some A))
      (update bytesLt key (.value v) (fun _ => .value v) es) := by
  obtain ⟨d, hd, -⟩ := h.obj
  have hA : A ∈ O := h.owned A List.mem_cons_self
  rw [dictSet_eq hd]
  have ht : Touches {a | a ∈ A :: ownedLists es} m
      (m.put A (.dict (update bytesLt key none (fun _ => r) d))) := touches_put List.mem_cons_self _
  refine DictStep.of_set h hm ht (hm.bounded.put (hm.live A hA) _) hd (Objects.put_objs ..) ⟨hv, ?_⟩
    ?_ ?_
  · refine hr.evolve hm.bounded (ht.mono h.owned) ?_
    rintro a (ha | ha)
    · exact .inl ha
    · cases ha
  · exact fun a ha => absurd ha List.not_mem_nil
  · intro a ha _
    refine Objects.put_objs_ne ?_ _
    rintro rfl
    exact (List.nodup_cons.mp h.nodup).1 ha

theorem DictStep.storeList {d : List (Bytes × Handle)} {items : List Handle} {vs : List Value}
    {key : Bytes} (h : OpenDict m O A es) (hm : Tracks m O)
    (hitems : List.Forall₂ (Reads m O) items vs) (ht : Touches {A} m m') (hb' : m'.Bounded)
    (hd : m.objs A = some (.dict d))
    (hd' : m'.objs A = some (.dict (update bytesLt key none (fun _ => some m.next) d)))
    (hlist : m'.objs m.next = some (.list items)) :
    DictStep m O A es m'
      (update bytesLt key (.owned m.next vs) (fun _ => .owned m.next vs) es) := by
  have htouch : Touches {a | a ∈ A :: ownedLists es} m m' := by
    refine ht.mono ?_
    rintro a rfl
    exact List.mem_cons_self
  refine DictStep.of_set h hm htouch hb' hd hd' ⟨rfl, items, hlist, ?_⟩ ?_ ?_
  · refine hitems.imp fun r v hr => hr.evolve hm.bounded (htouch.mono h.owned) ?_
    rintro a (ha | ha)
    · exact .inl ha
    · exact .inr (List.mem_singleton.mp ha).ge
  · intro a ha
    obtain rfl := List.mem_singleton.mp ha
    exact ⟨hb'.lt hlist, .inl le_rfl⟩
  · intro a ha _
    refine ht.same a (hm.live a (h.owned a (List.mem_cons_of_mem _ ha))) ?_
    rintro rfl
    exact (List.nodup_cons.mp h.nodup).1 ha

theorem OpenDict.dictGet (h : OpenDict m O A es) (key : Bytes) :
    (m.dictGet key (some A) = none ∧ get? bytesLt key es = none) ∨
      ∃ r slot, m.dictGet key (some A) = some r ∧ get? bytesLt key es = some slot ∧
        OpenSlot m O r slot := by
  obtain ⟨d, hd, hes⟩ := h.obj
  have hdict : m.dictGet key (some A) = get? bytesLt key d := by
    simp only [Objects.dictGet, Objects.get, Option.bind_some, hd]
  have hplace : Located bytesLt key (OpenEntry m O) d es := located (fun _ _ he => he.1) key hes
  rw [hdict]
  clear hes hdict hd h
  cases hplace with
  | found pre post pre' post' hpre he hpost hget hget' hset hset' =>
    exact .inr ⟨_, _, hget, hget', he.2⟩
  | absent pre post pre' post' hpre hpost hget hget' hset hset' => exact .inl ⟨hget, hget'⟩

theorem DictStep.extend {a : ℕ} {vs : List Value} {key : Bytes} (h : OpenDict m O A es)
    (hm : Tracks m O) (hr : Reads m O r v) (hget : get? bytesLt key es = some (.owned a vs)) :
    DictStep m O A es (m.pushBack r (some a))
      (update bytesLt key (.owned a (vs ++ [v])) (fun _ => .owned a (vs ++ [v])) es) := by
  have hin := mem_ownedLists_of_get? h.sorted hget
  have hne : A ≠ a := by
    rintro rfl
    exact (List.nodup_cons.mp h.nodup).1 hin
  obtain ⟨d, hd, -⟩ := h.obj
  obtain ⟨_, hnone⟩ | ⟨r', slot, hfound, hslot, hopen⟩ := h.dictGet key
  · rw [hget] at hnone
    cases hnone
  obtain rfl : Slot.owned a vs = slot := by
    rw [hget] at hslot
    exact Option.some.inj hslot
  obtain ⟨rfl, items, hlist, hitems⟩ := hopen
  have hkeep : update bytesLt key none (fun _ => some a) d = d := by
    refine update_of_get?_self ?_ none
    simpa only [Objects.dictGet, Objects.get, Option.bind_some, hd] using hfound
  rw [pushBack_eq hlist]
  have ht : Touches {a | a ∈ A :: ownedLists es} m (m.put a (.list (items ++ [r]))) :=
    touches_put (List.mem_cons_of_mem _ hin) _
  have hlt := hm.live a (h.owned a (List.mem_cons_of_mem _ hin))
  -- the new items are read outside what the dict owned before
  have hw : Within m O (O ∪ {b | b ∈ (Slot.owned a (vs ++ [v])).addrs}) := by
    rintro b (hb | hb)
    · exact .inl hb
    · obtain rfl := List.mem_singleton.mp hb
      exact .inl (h.owned b (List.mem_cons_of_mem _ hin))
  refine DictStep.of_set (r := some a) h hm ht (hm.bounded.put hlt _) hd ?_
    ⟨rfl, _, Objects.put_objs .., ?_⟩ ?_ ?_
  · rw [hkeep, Objects.put_objs_ne hne]
    exact hd
  · refine (List.rel_append hitems (.cons hr .nil)).imp fun _ _ h' => ?_
    exact h'.evolve hm.bounded (ht.mono h.owned) hw
  · intro b hb
    obtain rfl := List.mem_singleton.mp hb
    exact ⟨hlt, .inr ⟨vs, hget⟩⟩
  · intro b _ hb
    refine Objects.put_objs_ne ?_ _
    rintro rfl
    exact hb (List.mem_singleton_self b)

theorem Reads.isList_eq (h : Reads m O r v) : m.isList r = v.isList := by
  cases h with
  | str hobj _ => simp only [Objects.isList, Objects.get, Option.bind_some, hobj, Value.isList]
  | list hobj _ _ _ => simp only [Objects.isList, Objects.get, Option.bind_some, hobj, Value.isList]
  | dict hobj _ _ _ => simp only [Objects.isList, Objects.get, Option.bind_some, hobj, Value.isList]

end DictStep

end Nkit
