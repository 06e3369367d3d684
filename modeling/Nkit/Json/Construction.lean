import Nkit.Json.Sax

/-! The callback machine builds the reading of the value.  While a container is filled, everything
that changes is the container itself and what is newer, so the pointers below it on the stack
stay good. -/

namespace Nkit
open OrderedMap

/-- The pointer leads into an object older than `a`. -/
def Pointer.Below (a : ℕ) : Pointer → Prop
  | .root => True
  | .last b _ | .entry b _ => b < a

namespace DynamicConstructor

/-- The container at `a` is the one being filled. -/
structure Open (s : DynamicConstructor) (p : Pointer) (stack : List Pointer) (a : ℕ) : Prop where
  bounded : s.m.Bounded
  current : s.currentContainer = some p
  stack : s.stack = p :: stack
  deref : s.deref p = some (.shared a)
  below : p.Below a
  lt : a < s.m.next

/-- The next value makes `place x` of the container. -/
inductive Place (s : DynamicConstructor) (a : ℕ) : (Dyn → StoreObject) → Prop where
  | item {items : List Dyn} (htype : s.containerType = .array)
      (hobj : s.m.objs a = some (.vector items)) :
      Place s a fun x => .vector (items ++ [x])
  | entry {entries : List (Bytes × Dyn)} {key : Bytes} {old : Dyn} (htype : s.containerType = .map)
      (hobj : s.m.objs a = some (.map entries)) (hvalue : s.currentValue = some (.entry a key))
      (hold : get? bytesLt key entries = some old) (hnone : old.isNone = false) :
      Place s a fun x => .map (update bytesLt key .undef (fun _ => x) entries)

structure Fills (s s' : DynamicConstructor) (a : ℕ) : Prop where
  bounded : s'.m.Bounded
  next : s.m.next ≤ s'.m.next
  same : ∀ c < s.m.next, c ≠ a → s'.m.objs c = s.m.objs c
  root : s'.root = s.root
  current : s'.currentContainer = s.currentContainer
  stack : s'.stack = s.stack
  type : s'.containerType = s.containerType

def withStore (s : DynamicConstructor) (m : Store) (erange : Bool) : DynamicConstructor :=
  { s with m, erange }

structure Stores (s s' : DynamicConstructor) (a : ℕ) (place : Dyn → StoreObject) (t : DynTree)
    (x : Dyn) : Prop where
  fills : Fills s s' a
  obj : s'.m.objs a = some (place x)
  shows : Shows s'.m (Set.Ico s.m.next s'.m.next) x t
  some : x.isNone = false

section Lemmas
variable {s s' s'' : DynamicConstructor} {p : Pointer} {stack : List Pointer} {a : ℕ}
  {place : Dyn → StoreObject} {t : DynTree}

theorem Fills.refl (hb : s.m.Bounded) (a : ℕ) : Fills s s a :=
  ⟨hb, Nat.le_refl _, fun _ _ _ => rfl, rfl, rfl, rfl, rfl⟩

theorem Fills.trans (h : Fills s s' a) (h' : Fills s' s'' a) : Fills s s'' a :=
  ⟨h'.bounded, h.next.trans h'.next, fun c hc hne => (h'.same c (hc.trans_le h.next) hne).trans
    (h.same c hc hne),
    h'.root.trans h.root, h'.current.trans h.current, h'.stack.trans h.stack, h'.type.trans h.type⟩

theorem deref_congr {c : ℕ} (hbelow : p.Below c) (hroot : s'.root = s.root)
    (hsame : ∀ b < c, s'.m.objs b = s.m.objs b) :
    s'.deref p = s.deref p := by
  cases p with
  | root => simp only [DynamicConstructor.deref, hroot]
  | last b pos => simp only [DynamicConstructor.deref, hsame b hbelow]
  | entry b key => simp only [DynamicConstructor.deref, Store.lookup, hsame b hbelow]

theorem Open.fills (h : Open s p stack a) (hf : Fills s s' a) : Open s' p stack a := by
  refine ⟨hf.bounded, hf.current.trans h.current, hf.stack.trans h.stack, ?_, h.below,
    h.lt.trans_le hf.next⟩
  exact (deref_congr h.below hf.root fun b hb => hf.same b (hb.trans h.lt) hb.ne).trans h.deref

theorem deref_withStore (h : Open s p stack a) {m₁ : Store} (hg : s.m.Grown m₁) (erange : Bool) :
    (s.withStore m₁ erange).deref p = some (.shared a) := by
  have hsame : (s.withStore m₁ erange).deref p = s.deref p :=
    deref_congr h.below rfl fun b hb => hg.same b (hb.trans h.lt)
  exact hsame.trans h.deref

theorem stores_put (h : Open s p stack a) {m₁ : Store} (hg : s.m.Grown m₁) {v : Dyn} (erange : Bool)
    (hv : Shows m₁ (Set.Ico s.m.next m₁.next) v t) (hnone : v.isNone = false) :
    Stores s (s.withStore (m₁.put a (place v)) erange) a place t v := by
  refine ⟨⟨fun c hc => ?_, hg.next, fun c hc hne => ?_, rfl, rfl, rfl, rfl⟩, Store.put_self .., ?_,
    hnone⟩
  · exact (Store.put_same _ ((h.lt.trans_le hg.next).trans_le hc).ne').trans (hg.bounded c hc)
  · exact (Store.put_same _ hne).trans (hg.same c hc)
  · exact hv.frame (fun c hc => Store.put_same _ (h.lt.trans_le hc.1).ne') subset_rfl

theorem assign_entry {m₁ : Store} {entries : List (Bytes × Dyn)} {key : Bytes} {old : Dyn} (v : Dyn)
    (erange : Bool) (hobj : m₁.objs a = some (.map entries))
    (hold : get? bytesLt key entries = some old) (hnone : old.isNone = false) :
    (s.withStore m₁ erange).assign (.entry a key) v =
      some (s.withStore (m₁.put a (.map (update bytesLt key .undef (fun _ => v) entries)))
        erange) := by
  have hderef : (s.withStore m₁ erange).deref (.entry a key) = some old := by
    simp only [DynamicConstructor.deref, Store.lookup, withStore, hobj, hold]
  rw [DynamicConstructor.assign, hderef]
  simp only [Option.bind_eq_bind, Option.bind_some, withStore, hobj, hnone, Bool.false_eq_true,
    if_false]

theorem pushBack_item (h : Open s p stack a) {m₁ : Store} (hg : s.m.Grown m₁) {items : List Dyn}
    (v : Dyn) (erange : Bool) (hobj : s.m.objs a = some (.vector items)) :
    (s.withStore m₁ erange).pushBack p v =
      some (s.withStore (m₁.put a (.vector (items ++ [v]))) erange) := by
  have hobj₁ : m₁.objs a = some (.vector items) := (hg.same a h.lt).trans hobj
  rw [DynamicConstructor.pushBack, deref_withStore h hg erange]
  simp only [Option.bind_eq_bind, Option.bind_some, Store.pushBack, Store.get, withStore, hobj₁]

theorem onScalar_stores (h : Open s p stack a) (hplace : Place s a place) {m₁ : Store}
    (hg : s.m.Grown m₁) {v : Dyn} {erange : Bool}
    {make : DynamicConstructor → Option (Dyn × DynamicConstructor)}
    (hmake : make s = some (v, s.withStore m₁ erange)) :
    s.onScalar make = some (true, s.withStore (m₁.put a (place v)) erange) := by
  unfold onScalar
  cases hplace with
  | item htype hobj =>
    rw [htype, hmake]
    show ((s.withStore m₁ erange).currentContainer.bind _) = _
    rw [show (s.withStore m₁ erange).currentContainer = some p from h.current, Option.bind_some,
      pushBack_item h hg v erange hobj]
    rfl
  | entry htype hobj hvalue hold hnone =>
    rw [htype, hmake]
    show ((s.withStore m₁ erange).currentValue.bind _) = _
    rw [show (s.withStore m₁ erange).currentValue = _ from hvalue, Option.bind_some,
      assign_entry v erange ((hg.same a h.lt).trans hobj) hold hnone]
    rfl

theorem onScalar_fails (hplace : Place s a place)
    {make : DynamicConstructor → Option (Dyn × DynamicConstructor)} (hmake : make s = none) :
    s.onScalar make = none := by
  unfold onScalar
  cases hplace with
  | item htype hobj =>
    rw [htype, hmake]
    rfl
  | entry htype hobj hvalue hold hnone =>
    rw [htype, hmake]
    rfl

structure Starts (s s₁ : DynamicConstructor) (a : ℕ) (place : Dyn → StoreObject)
    (empty : StoreObject) (type : ContainerType) : Prop where
  opened : ∃ p, Open s₁ p s.stack s.m.next
  stores : s₁.m.objs a = some (place (.shared s.m.next))
  obj : s₁.m.objs s.m.next = some empty
  next : s₁.m.next = s.m.next + 1
  same : ∀ c < s.m.next, c ≠ a → s₁.m.objs c = s.m.objs c
  root : s₁.root = s.root
  type : s₁.containerType = type
  erange : s₁.erange = s.erange

theorem putContainer_put (h : Open s p stack a) (hplace : Place s a place) {m₁ : Store}
    (hg : s.m.Grown m₁) (v : Dyn) (erange : Bool) :
    ∃ p', (s.withStore m₁ erange).putContainer v =
      some (p', s.withStore (m₁.put a (place v)) erange) ∧
      Pointer.Below s.m.next p' ∧ (s.withStore (m₁.put a (place v)) erange).deref p' = some v := by
  unfold putContainer
  cases hplace with
  | @item items htype hobj =>
    refine ⟨.last a items.length, ?_, h.lt, ?_⟩
    · rw [show (s.withStore m₁ erange).containerType = .array from htype]
      show ((s.withStore m₁ erange).currentContainer.bind _) = _
      rw [show (s.withStore m₁ erange).currentContainer = some p from h.current, Option.bind_some,
        pushBack_item h hg v erange hobj]
      have hderef : (s.withStore (m₁.put a (.vector (items ++ [v]))) erange).deref p = s.deref p :=
        deref_congr h.below rfl fun b hb =>
          (Store.put_same _ hb.ne).trans (hg.same b (hb.trans h.lt))
      have hback : (s.withStore (m₁.put a (.vector (items ++ [v]))) erange).back p =
          some (.last a items.length) := by
        rw [back, hderef, h.deref]
        simp [withStore, Store.get, Store.put_self]
      show ((s.withStore (m₁.put a (.vector (items ++ [v]))) erange).back p).bind _ = _
      rw [hback]
      rfl
    · simp [DynamicConstructor.deref, withStore, Store.put_self]
  | @entry entries key old htype hobj hvalue hold hnone =>
    refine ⟨.entry a key, ?_, h.lt, ?_⟩
    · rw [show (s.withStore m₁ erange).containerType = .map from htype]
      show ((s.withStore m₁ erange).currentValue.bind _) = _
      rw [show (s.withStore m₁ erange).currentValue = _ from hvalue, Option.bind_some,
        assign_entry v erange ((hg.same a h.lt).trans hobj) hold hnone]
      rfl
    · simp only [DynamicConstructor.deref, withStore, Store.lookup, Store.put_self,
        get?_update_bytes, if_true]

theorem onStart_starts (h : Open s p stack a) (hplace : Place s a place) (empty : StoreObject)
    (type : ContainerType) :
    ∃ s₁, s.onStart empty type = some (true, s₁) ∧ Starts s s₁ a place empty type := by
  have hg := Store.grown_alloc h.bounded empty
  obtain ⟨p', hput, hbelow, hderef⟩ := putContainer_put h hplace hg (.shared s.m.next) s.erange
  set m₁ := (s.m.alloc empty).2
  set m₂ := m₁.put a (place (.shared s.m.next))
  have hbounded : m₂.Bounded := by
    intro c hc
    exact (Store.put_same _ ((h.lt.trans_le hg.next).trans_le hc).ne').trans (hg.bounded c hc)
  refine ⟨{ s.withStore m₂ s.erange with
    currentContainer := some p', containerType := type, stack := p' :: s.stack }, ?_,
      ⟨p', hbounded, rfl, rfl, ?_, hbelow, Nat.lt_succ_self _⟩, Store.put_self .., ?_, rfl, ?_, rfl,
      rfl, rfl⟩
  · show (DynamicConstructor.putContainer (.shared s.m.next) (s.withStore m₁ s.erange)).bind _ = _
    rw [hput]
    rfl
  · rw [← hderef]
    cases p' <;> rfl
  · exact (Store.put_same _ h.lt.ne').trans (s.m.alloc_self empty)
  · exact fun c hc hne => (Store.put_same _ hne).trans (hg.same c hc)

theorem onEnd_stores (h : Open s p stack a) (hplace : Place s a place) {empty : StoreObject}
    {type : ContainerType} {s₁ s₂ : DynamicConstructor} (hstart : Starts s s₁ a place empty type)
    (hfills : Fills s₁ s₂ s.m.next)
    (hshows : Shows s₂.m (Set.Ico s.m.next s₂.m.next) (.shared s.m.next) t) :
    ∃ s', s₂.onEnd = some (true, s') ∧ s'.erange = s₂.erange ∧
      Stores s s' a place t (.shared s.m.next) := by
  obtain ⟨p', hopen⟩ := hstart.opened
  have hsame : ∀ c < s.m.next, c ≠ a → s₂.m.objs c = s.m.objs c := by
    intro c hc hne
    have hlt : c < s₁.m.next := hstart.next ▸ hc.trans (Nat.lt_succ_self _)
    exact (hfills.same c hlt hc.ne).trans (hstart.same c hc hne)
  have hobj : s₂.m.objs a = some (place (.shared s.m.next)) := by
    have hlt : a < s₁.m.next := hstart.next ▸ h.lt.trans (Nat.lt_succ_self _)
    exact (hfills.same a hlt h.lt.ne).trans hstart.stores
  have hderef : s₂.deref p = some (.shared a) := by
    have hcongr : s₂.deref p = s.deref p :=
      deref_congr h.below (hfills.root.trans hstart.root) fun b hb => hsame b (hb.trans h.lt) hb.ne
    exact hcongr.trans h.deref
  have htype : (if (s₂.m.dictAddr (.shared a)).isSome then ContainerType.map else .array) =
      s.containerType := by
    cases hplace with
    | item htype _ => simp only [Store.dictAddr, Store.get, hobj, htype]; rfl
    | entry htype _ _ _ _ => simp only [Store.dictAddr, Store.get, hobj, htype]; rfl
  have hstack : s₂.stack = p' :: p :: stack := by rw [hfills.stack, hopen.stack, h.stack]
  refine ⟨{ s₂ with
    currentContainer := some p, containerType := s.containerType, stack := p :: stack }, ?_, rfl,
      ?_⟩
  · rw [onEnd, hstack]
    show (s₂.deref p).bind _ = _
    rw [hderef, Option.bind_some, htype]
  · have hnext : s.m.next ≤ s₂.m.next := Nat.le_of_succ_le (hstart.next.symm.le.trans hfills.next)
    exact ⟨⟨hfills.bounded, hnext, hsame, hfills.root.trans hstart.root, h.current.symm,
      h.stack.symm, rfl⟩, hobj, hshows, rfl⟩

theorem feed_append (strtod : Strtod) (xs ys : List JsonEvent) (s : DynamicConstructor) :
    s.feed strtod (xs ++ ys) =
      (s.feed strtod xs).bind fun r => if r.1 then r.2.feed strtod ys else some (false, r.2) := by
  induction xs generalizing s with
  | nil => rfl
  | cons e xs ih =>
    rw [List.cons_append, feed, feed]
    cases hrun : s.onEvent strtod e with
    | none => rfl
    | some r =>
      obtain ⟨ok, s₁⟩ := r
      cases ok with
      | false => rfl
      | true => exact ih s₁

def Follows {T : Type} (reading : Option (T × Bool)) (run : Option (Bool × DynamicConstructor))
    (good : T → DynamicConstructor → Prop) : Prop :=
  match reading with
  | none => run = none
  | some (t, erange) => ∃ s', run = some (true, s') ∧ s'.erange = erange ∧ good t s'

theorem Follows.bind {T U : Type} {strtod : Strtod} {reading : Option (T × Bool)}
    {xs ys : List JsonEvent} {good : T → DynamicConstructor → Prop}
    {good' : U → DynamicConstructor → Prop} {next : T × Bool → Option (U × Bool)}
    (h : Follows reading (s.feed strtod xs) good)
    (h' : ∀ t s', good t s' → Follows (next (t, s'.erange)) (s'.feed strtod ys) good') :
    Follows (reading.bind next) (s.feed strtod (xs ++ ys)) good' := by
  rw [feed_append]
  cases reading with
  | none =>
    rw [show s.feed strtod xs = none from h]
    rfl
  | some r =>
    obtain ⟨t, erange⟩ := r
    obtain ⟨s', hrun, rfl, hgood⟩ := h
    rw [hrun]
    exact h' t s' hgood

theorem Follows.mono {T : Type} {reading : Option (T × Bool)}
    {run : Option (Bool × DynamicConstructor)} {good good' : T → DynamicConstructor → Prop}
    (h : Follows reading run good) (hgood : ∀ t s', good t s' → good' t s') :
    Follows reading run good' := by
  cases reading with
  | none => exact h
  | some r =>
    obtain ⟨s', hrun, herange, hs'⟩ := h
    exact ⟨s', hrun, herange, hgood _ _ hs'⟩

theorem feed_single (strtod : Strtod) (e : JsonEvent) {s₁ : DynamicConstructor}
    (h : s.onEvent strtod e = some (true, s₁)) :
    s.feed strtod [e] = some (true, s₁) := by
  rw [feed, h]
  rfl

theorem feed_scalar (strtod : Strtod) (h : Open s p stack a) (hplace : Place s a place)
    (e : JsonEvent) (make : DynamicConstructor → Option (Dyn × DynamicConstructor))
    (hevent : s.onEvent strtod e = s.onScalar make) {m₁ : Store} (hg : s.m.Grown m₁) {v : Dyn}
    {erange : Bool} (hmake : make s = some (v, s.withStore m₁ erange))
    (hv : Shows m₁ (Set.Ico s.m.next m₁.next) v t) (hnone : v.isNone = false) :
    Follows (some (t, erange)) (s.feed strtod [e]) fun t s' => ∃ x, Stores s s' a place t x := by
  refine ⟨s.withStore (m₁.put a (place v)) erange, feed_single strtod e ?_, rfl, v,
    stores_put h hg erange hv hnone⟩
  rw [hevent]
  exact onScalar_stores h hplace hg hmake

theorem parseNumber_plain {strtod : Strtod} {str : Bytes} {erange erange' : Bool} {v : Dyn}
    (h : parseNumber strtod str erange = some (v, erange')) :
    ∃ type data, v = .plain type data ∧ type ≠ .none := by
  unfold parseNumber at h
  simp only at h
  split_ifs at h <;> cases h <;> exact ⟨_, _, rfl, by decide⟩

/-- An item or an entry of the container at `b`, among newer objects. -/
def Holds (m : Store) (b : ℕ) (x : Dyn) (t : DynTree) : Prop :=
  Shows m (Set.Ioo b m.next) x t ∧ x.isNone = false

theorem Stores.holds {b : ℕ} {x : Dyn} (hb : b < s.m.next) (h : Stores s s' b place t x) :
    Holds s'.m b x t :=
  ⟨h.shows.mono fun _ hc => ⟨hb.trans_le hc.1, hc.2⟩, h.some⟩

theorem Fills.holds {b : ℕ} {x : Dyn} (h : Fills s s' b) (hx : Holds s.m b x t) :
    Holds s'.m b x t :=
  ⟨hx.1.frame (fun c hc => h.same c hc.2 hc.1.ne') fun _ hc => ⟨hc.1, hc.2.trans_le h.next⟩, hx.2⟩

theorem onMapKey_place (h : Open s p stack a) {entries : List (Bytes × Dyn)}
    (htype : s.containerType = .map) (hobj : s.m.objs a = some (.map entries))
    (hsome : ∀ e ∈ entries, e.2.isNone = false) (key : Bytes) :
    ∃ s₁, s.onMapKey key = some (true, s₁) ∧ Fills s s₁ a ∧ s₁.erange = s.erange ∧
      s₁.m.next = s.m.next ∧
      Place s₁ a fun x => .map (update bytesLt key .undef (fun _ => x) entries) := by
  set s₁ : DynamicConstructor :=
    ⟨s.root, s.m.put a (.map (update bytesLt key .undef id entries)), s.erange, some p,
      some (.entry a key), s.containerType, s.stack⟩
  have hnone : ((get? bytesLt key entries).getD .undef).isNone = false := by
    cases hk : get? bytesLt key entries with
    | none => rfl
    | some x =>
      obtain ⟨key', hin⟩ := mem_of_get? hk
      exact hsome _ hin
  have hplace : Place s₁ a fun x =>
      .map (update bytesLt key .undef (fun _ => x) (update bytesLt key .undef id entries)) :=
    .entry htype (Store.put_self ..) rfl (by rw [get?_update_bytes, if_pos rfl]; rfl) hnone
  simp only [update_update bytesLt_strictWeak] at hplace
  refine ⟨s₁, ?_,
    ⟨fun c hc => ?_, Nat.le_refl _, fun c _ hne => Store.put_same _ hne, rfl, h.current.symm, rfl,
      rfl⟩, rfl, rfl, hplace⟩
  · rw [onMapKey, h.current]
    show (s.deref p).bind _ = _
    rw [h.deref]
    simp only [Option.bind_some, Store.get, hobj]
    rfl
  · exact (Store.put_same _ (h.lt.trans_le hc).ne').trans (h.bounded c hc)

theorem shows_vector {m : Store} {b : ℕ} {items : List Dyn} {ts : List DynTree} (hlt : b < m.next)
    (hobj : m.objs b = some (.vector items)) (h : List.Forall₂ (Holds m b) items ts) :
    Shows m (Set.Ico b m.next) (.shared b) (.list ts) := by
  obtain ⟨hlen, hitems⟩ := List.forall₂_iff_get.mp h
  refine .list hobj ⟨Nat.le_refl _, hlt⟩ hlen fun i x t hx ht => ?_
  obtain ⟨hi, rfl⟩ := List.getElem?_eq_some_iff.mp hx
  obtain ⟨hi', rfl⟩ := List.getElem?_eq_some_iff.mp ht
  exact (hitems i hi hi').1.mono fun c hc => ⟨hc.1.le, hc.2⟩

theorem shows_map {m : Store} {b : ℕ} {entries : List (Bytes × Dyn)} {ts : List (Bytes × DynTree)}
    (hlt : b < m.next) (hobj : m.objs b = some (.map entries)) (hsorted : Sorted bytesLt entries)
    (h : List.Forall₂ (fun e te => e.1 = te.1 ∧ Holds m b e.2 te.2) entries ts) :
    Shows m (Set.Ico b m.next) (.shared b) (.dict ts) := by
  refine .dict hobj ⟨Nat.le_refl _, hlt⟩ hsorted (keys_of_forall₂ h) fun k x t hx ht => ?_
  exact (get?_of_forall₂ h hx ht).1.mono fun c hc => ⟨hc.1.le, hc.2⟩

mutual

theorem feed_value (strtod : Strtod) (v : Json) {s : DynamicConstructor} {p : Pointer}
    {stack : List Pointer} {a : ℕ} {place : Dyn → StoreObject} (h : Open s p stack a)
    (hplace : Place s a place) :
    Follows (v.read strtod s.erange) (s.feed strtod v.events) fun t s' =>
      ∃ x, Stores s s' a place t x := by
  match v with
  | .null =>
    exact feed_scalar strtod h hplace .null (fun s => some (.undef, s)) rfl (.refl h.bounded) rfl
      (.plain .undef 0) rfl
  | .bool b =>
    exact feed_scalar strtod h hplace (.boolean b)
      (fun s => some (.plain .bool (if b then 1 else 0), s)) rfl
      (.refl h.bounded) rfl (.plain .bool _) rfl
  | .string str =>
    exact feed_scalar strtod h hplace (.string str)
      (fun s => some ((s.m.alloc (.string str)).1, { s with m := _ })) rfl
      (Store.grown_alloc h.bounded (.string str)) rfl
        (.string (s.m.alloc_self _) ⟨Nat.le_refl _, Nat.lt_succ_self _⟩) rfl
  | .number str =>
    rw [Json.read, Json.events]
    cases hparse : parseNumber strtod str s.erange with
    | none =>
      show s.feed strtod [.number str] = none
      rw [feed, onEvent, onNumber, onScalar_fails hplace]
      · rfl
      · rw [hparse]
        rfl
    | some r =>
      obtain ⟨v, erange⟩ := r
      -- a number is a plain value and never `none`
      obtain ⟨type, data, rfl, hne⟩ := parseNumber_plain hparse
      refine feed_scalar strtod h hplace (.number str)
        (fun s => (parseNumber strtod str s.erange).bind fun r =>
          some (r.1, { s with erange := r.2 })) rfl
        (.refl h.bounded) ?_ (.plain type data) ?_
      · rw [hparse]
        rfl
      · cases type with
        | none => exact absurd rfl hne
        | undef | integer | unsignedInteger | float | bool | dateTime => rfl
  | .array items =>
    obtain ⟨s₁, hrun, hstart⟩ := onStart_starts h hplace (.vector []) .array
    obtain ⟨p', hopen⟩ := hstart.opened
    have hfeed : s.feed strtod (Json.array items).events =
        s₁.feed strtod (Json.itemEvents items ++ [.endArray]) := by
      rw [Json.events, List.cons_append, feed, show s.onEvent strtod .startArray = _ from hrun]
      rfl
    have hitems := feed_items strtod items hopen hstart.type hstart.obj .nil
    rw [Json.read, hfeed, ← hstart.erange, Option.map_eq_bind]
    refine hitems.bind ?_
    rintro ts s₂ ⟨hfills, done, hobj, hdone⟩
    have hlt : s.m.next < s₂.m.next := hstart.next.symm.le.trans hfills.next
    obtain ⟨s', hend, herange, hstores⟩ :=
      onEnd_stores h hplace hstart hfills (shows_vector hlt hobj hdone)
    exact ⟨s', feed_single strtod _ hend, herange, _, hstores⟩
  | .object members =>
    obtain ⟨s₁, hrun, hstart⟩ := onStart_starts h hplace (.map []) .map
    obtain ⟨p', hopen⟩ := hstart.opened
    have hfeed : s.feed strtod (Json.object members).events =
        s₁.feed strtod (Json.memberEvents members ++ [.endMap]) := by
      rw [Json.events, List.cons_append, feed, show s.onEvent strtod .startMap = _ from hrun]
      rfl
    have hmembers := feed_members strtod members hopen hstart.type hstart.obj (sorted_nil _) .nil
    rw [Json.read, hfeed, ← hstart.erange, Option.map_eq_bind]
    refine hmembers.bind ?_
    rintro ts s₂ ⟨hfills, done, hobj, hsorted, hdone⟩
    have hlt : s.m.next < s₂.m.next := hstart.next.symm.le.trans hfills.next
    obtain ⟨s', hend, herange, hstores⟩ :=
      onEnd_stores h hplace hstart hfills (shows_map hlt hobj hsorted hdone)
    exact ⟨s', feed_single strtod _ hend, herange, _, hstores⟩
termination_by structural v

theorem feed_items (strtod : Strtod) (items : List Json) {s : DynamicConstructor} {p : Pointer}
    {stack : List Pointer} {b : ℕ} {done : List Dyn} {tdone : List DynTree} (h : Open s p stack b)
    (htype : s.containerType = .array) (hobj : s.m.objs b = some (.vector done))
    (hdone : List.Forall₂ (Holds s.m b) done tdone) :
    Follows (readItems strtod items s.erange) (s.feed strtod (Json.itemEvents items)) fun ts s' =>
      Fills s s' b ∧ ∃ done', s'.m.objs b = some (.vector done') ∧
        List.Forall₂ (Holds s'.m b) done' (tdone ++ ts) := by
  match items with
  | [] => exact ⟨s, rfl, rfl, .refl h.bounded b, done, hobj, by rwa [List.append_nil]⟩
  | v :: items =>
    rw [readItems, Json.itemEvents]
    refine (feed_value strtod v h (.item htype hobj)).bind ?_
    rintro t s₁ ⟨x, hstores⟩
    have hopen := h.fills hstores.fills
    have hdone₁ :=
      List.rel_append (hdone.imp fun _ _ hx => hstores.fills.holds hx)
        (.cons (hstores.holds h.lt) .nil)
    have hrest := feed_items strtod items hopen (hstores.fills.type.trans htype) hstores.obj hdone₁
    rw [← List.append_nil (Json.itemEvents items)]
    refine hrest.bind ?_
    rintro ts s₂ ⟨hfills, done', hobj', hdone'⟩
    exact ⟨s₂, rfl, rfl, hstores.fills.trans hfills, done', hobj',
      by rwa [List.append_assoc] at hdone'⟩
termination_by structural items

theorem feed_members (strtod : Strtod) (members : List (Bytes × Json)) {s : DynamicConstructor}
    {p : Pointer} {stack : List Pointer} {b : ℕ} {done : List (Bytes × Dyn)}
    {tdone : List (Bytes × DynTree)} (h : Open s p stack b) (htype : s.containerType = .map)
    (hobj : s.m.objs b = some (.map done)) (hsorted : Sorted bytesLt done)
    (hdone : List.Forall₂ (fun e te => e.1 = te.1 ∧ Holds s.m b e.2 te.2) done tdone) :
    Follows (readMembers strtod members s.erange tdone) (s.feed strtod (Json.memberEvents members))
      fun ts s' =>
      Fills s s' b ∧ ∃ done', s'.m.objs b = some (.map done') ∧ Sorted bytesLt done' ∧
        List.Forall₂ (fun e te => e.1 = te.1 ∧ Holds s'.m b e.2 te.2) done' ts := by
  match members with
  | [] => exact ⟨s, rfl, rfl, .refl h.bounded b, done, hobj, hsorted, hdone⟩
  | (k, v) :: members =>
    have hsome : ∀ e ∈ done, e.2.isNone = false := by
      intro e he
      obtain ⟨i, hi, rfl⟩ := List.getElem_of_mem he
      obtain ⟨hlen, hrel⟩ := List.forall₂_iff_get.mp hdone
      exact (hrel i hi (hlen ▸ hi)).2.2
    obtain ⟨s₁, hkey, hfills₁, herange, hnext, hplace⟩ := onMapKey_place h htype hobj hsome k
    have hfeed : s.feed strtod (Json.memberEvents ((k, v) :: members)) =
        s₁.feed strtod (v.events ++ Json.memberEvents members) := by
      rw [Json.memberEvents, List.cons_append, feed,
        show s.onEvent strtod (.mapKey k) = _ from hkey]
      rfl
    rw [readMembers, hfeed, ← herange]
    refine (feed_value strtod v (h.fills hfills₁) hplace).bind ?_
    rintro t s₂ ⟨x, hstores⟩
    have hopen := (h.fills hfills₁).fills hstores.fills
    have hfills₂ := hfills₁.trans hstores.fills
    have hdone₂ : List.Forall₂ (fun e te => e.1 = te.1 ∧ Holds s₂.m b e.2 te.2)
        (update bytesLt k .undef (fun _ => x) done) (update bytesLt k .undef (fun _ => t) tdone) :=
      forall₂_update (hdone.imp fun _ _ he => ⟨he.1, hfills₂.holds he.2⟩) k _ _
        (hstores.holds (hnext ▸ h.lt))
    have hrest := feed_members strtod members hopen (hfills₂.type.trans htype) hstores.obj
      (update_sorted bytesLt_strictWeak hsorted ..) hdone₂
    refine hrest.mono ?_
    rintro ts s₃ ⟨hfills, done', hobj', hsorted', hdone'⟩
    exact ⟨hfills₂.trans hfills, done', hobj', hsorted', hdone'⟩
termination_by structural members

end

end Lemmas

section Root
variable {m : Store}

def started (m : Store) (erange : Bool) (empty : StoreObject) (type : ContainerType) :
    DynamicConstructor :=
  ⟨.shared m.next, (m.alloc empty).2, erange, some .root, none, type, [.root]⟩

theorem started_open (hb : m.Bounded) (erange : Bool) (empty : StoreObject) (type : ContainerType) :
    Open (started m erange empty type) .root [] m.next :=
  ⟨(Store.grown_alloc hb empty).bounded, rfl, rfl, rfl, trivial, Nat.lt_succ_self _⟩

theorem onEnd_root {s : DynamicConstructor} (hstack : s.stack = [.root]) :
    s.onEnd = some (true, { s with currentContainer := none, stack := [] }) := by
  rw [onEnd, hstack]

theorem feed_root (strtod : Strtod) (hb : m.Bounded) (erange : Bool) {v : Json}
    (hv : v.isContainer = true) :
    Follows (v.read strtod erange) ((create m erange).feed strtod v.events) fun t s =>
      Shows s.m Set.univ s.root t := by
  match v, hv with
  | .array items, _ =>
    have hopen := started_open hb erange (.vector []) .array
    have hfeed : (create m erange).feed strtod (Json.array items).events =
        (started m erange (.vector []) .array).feed strtod
          (Json.itemEvents items ++ [.endArray]) := by
      rw [Json.events, List.cons_append, feed]
      rfl
    rw [Json.read, hfeed, Option.map_eq_bind]
    refine (feed_items strtod items hopen rfl (m.alloc_self _) .nil).bind ?_
    rintro ts s ⟨hfills, done, hobj, hdone⟩
    refine ⟨_, feed_single strtod _ (onEnd_root hfills.stack), rfl, ?_⟩
    show Shows s.m Set.univ s.root (.list ts)
    rw [hfills.root]
    exact (shows_vector hfills.next hobj hdone).mono (Set.subset_univ _)
  | .object members, _ =>
    have hopen := started_open hb erange (.map []) .map
    have hfeed : (create m erange).feed strtod (Json.object members).events =
        (started m erange (.map []) .map).feed strtod (Json.memberEvents members ++ [.endMap]) := by
      rw [Json.events, List.cons_append, feed]
      rfl
    rw [Json.read, hfeed, Option.map_eq_bind]
    refine (feed_members strtod members hopen rfl (m.alloc_self _) (sorted_nil _) .nil).bind ?_
    rintro ts s ⟨hfills, done, hobj, hsorted, hdone⟩
    refine ⟨_, feed_single strtod _ (onEnd_root hfills.stack), rfl, ?_⟩
    show Shows s.m Set.univ s.root (.dict ts)
    rw [hfills.root]
    exact (shows_map hfills.next hobj hsorted hdone).mono (Set.subset_univ _)

theorem feed_scalar_root (strtod : Strtod) (m : Store) (erange : Bool) {v : Json}
    (hv : v.isContainer = false) :
    (create m erange).feed strtod v.events = some (false, create m erange) := by
  cases v with
  | null | bool b | number str | string str => rw [Json.events, feed]; rfl
  | array | object => cases hv

end Root

end DynamicConstructor

theorem dynamicFromJson_reading {yajl : Yajl} {strtod : Strtod} {json : Bytes} {v : Json}
    {m : Store} {erange erange' : Bool} {t : DynTree} (hparse : yajl.parse json = (v.events, true))
    (hb : m.Bounded) (hv : v.isContainer = true)
    (hread : v.read strtod erange = some (t, erange')) :
    ∃ d m', dynamicFromJson yajl strtod json m erange = some (d, none, m') ∧
      Shows m' Set.univ d t := by
  have hroot := DynamicConstructor.feed_root strtod hb erange hv
  rw [hread] at hroot
  obtain ⟨s, hrun, -, hshows⟩ := hroot
  refine ⟨s.root, s.m, ?_, hshows⟩
  simp only [dynamicFromJson, hparse, hrun, Option.bind_eq_bind, Option.bind_some, Bool.and_self,
    if_true]

/-- For an array or an object the callbacks build its reading, and fail only if that fails, on a
number that is too long.  Any other value is refused. -/
theorem json_builds_reading (yajl : Yajl) (strtod : Strtod) (json : Bytes) (v : Json) (m : Store)
    (erange : Bool) (hparse : yajl.parse json = (v.events, true)) (herror : yajl.getError json ≠ [])
    (hb : m.Bounded) :
    (v.isContainer = true →
      match v.read strtod erange with
      | some (t, _) =>
        ∃ d m', dynamicFromJson yajl strtod json m erange = some (d, none, m') ∧
        Shows m' Set.univ d t
      | none => dynamicFromJson yajl strtod json m erange = none) ∧
    (v.isContainer = false →
      (∃ s, (DynamicConstructor.create m erange).feed strtod v.events = some (false, s)) ∧
      ∃ error m', dynamicFromJson yajl strtod json m erange = some (.undef, some error, m') ∧
      error ≠ []) := by
  refine ⟨fun hv => ?_, fun hv => ?_⟩
  · cases hread : v.read strtod erange with
    | none =>
      have hroot := DynamicConstructor.feed_root strtod hb erange hv
      rw [hread] at hroot
      simp only [dynamicFromJson, hparse, show _ = none from hroot, Option.bind_eq_bind,
        Option.bind_none]
    | some r => exact dynamicFromJson_reading hparse hb hv hread
  · have hrun := DynamicConstructor.feed_scalar_root strtod m erange hv
    refine ⟨⟨_, hrun⟩, yajl.getError json, m, ?_, herror⟩
    simp only [dynamicFromJson, hparse, hrun, Option.bind_eq_bind, Option.bind_some, Bool.false_and,
      Bool.false_eq_true, if_false]
    rfl

def repeatedKey : Json :=
  .object [(ascii "k", .array [.bool true, .number (ascii "7")]), (ascii "k", .array [.null])]

theorem json_builds_reading_repeated :
    ∃ d m', dynamicFromJson ⟨fun _ => (repeatedKey.events, true), fun _ => ascii "parse error"⟩
      (fun _ => (0, false))
        (ascii "\x7b\"k\":[true,7],\"k\":[null]\x7d") ⟨0, fun _ => none⟩ false =
          some (d, none, m') ∧
      Shows m' Set.univ d (.dict [(ascii "k", .list [.undef])]) := by
  have hread : repeatedKey.read (fun _ => (0, false)) false =
    some (.dict [(ascii "k", .list [.undef])], false) := by rfl
  have hbuilds :=
    (json_builds_reading ⟨fun _ => (repeatedKey.events, true), fun _ => ascii "parse error"⟩
    (fun _ => (0, false)) (ascii "\x7b\"k\":[true,7],\"k\":[null]\x7d") repeatedKey
    ⟨0, fun _ => none⟩ false rfl (by decide)
    fun _ _ => rfl).1 rfl
  rw [hread] at hbuilds
  exact hbuilds

end Nkit
