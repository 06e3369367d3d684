import Nkit.Path.WellFormed
import Nkit.Json.Decimal
import Nkit.Base.Runs

/-! Printed paths are read back, and lead through dicts by their keys and then through lists by
their indices. -/

namespace Nkit
open OrderedMap

section
variable {delimiter : UInt8} {keys : List Bytes} {indices : List ℕ} {params : List PathItem}

/-- `operator /` over keys and then over indices. -/
def DynamicPath.ofKeysIndices (delimiter : UInt8) (keys : List Bytes) (indices : List ℕ) :
    DynamicPath :=
  ⟨delimiter, keys.map .key ++ indices.map .index, []⟩

def indicesText (indices : List ℕ) : Bytes := indices.flatMap fun i => 91 :: decimal i ++ [93]

theorem stringCast_natCast (n : ℕ) : stringCast n = decimal n := by
  rw [stringCast_eq, if_neg (Int.natCast_nonneg n).not_gt, Int.natAbs_natCast]

theorem isDigits_decimal (n : ℕ) :
    IsDigits (decimal n) := ⟨decimal_ne_nil n, fun _ => decimal_digits⟩

theorem print_eq (hne : keys ≠ []) (indices : List ℕ) (vars : Variables) :
    (DynamicPath.ofKeysIndices delimiter keys indices).print vars = keys.flatMap (delimiter :: ·) ++
      indicesText indices := by
  obtain ⟨k, keys, rfl⟩ := List.exists_cons_of_ne_nil hne
  simp only [DynamicPath.print, DynamicPath.ofKeysIndices, List.map_cons, List.cons_append,
    List.head?_cons, Option.any_some, PathItem.isIndex, Bool.false_eq_true, if_false,
    List.nil_append, List.flatMap_cons, List.flatMap_append, List.flatMap_map, if_true,
    PathItem.print, stringCast_natCast, indicesText, List.append_assoc]

theorem takes_indices {p : PathPlace} (hp : p = .named ∨ p = .closed)
    (hindices : ∀ i ∈ indices, i < 2 ^ 64) :
    Takes delimiter p (indicesText indices) [] (indices.map .index) false := by
  induction indices generalizing p with
  | nil => rcases hp with rfl | rfl <;> exact .stop _ []
  | cons i indices ih =>
    have hindex :=
      Takes.index (isDigits_decimal i)
        (ih (.inr rfl) fun j hj => hindices j (List.mem_cons_of_mem i hj))
    have hi := hindices i List.mem_cons_self
    rw [digitsValue_decimal, Nat.mod_eq_of_lt hi, decide_eq_false (not_le.mpr hi)] at hindex
    have htext : indicesText (i :: indices) = 91 :: (decimal i ++ 93 :: indicesText indices) := by
      simp [indicesText]
    rw [htext, List.map_cons]
    rcases hp with rfl | rfl
    · exact .openBracket (.inl rfl) hindex
    · exact .openBracket (.inr (.inl rfl)) hindex

theorem takes_keys (hkeys : ∀ k ∈ keys, IsName delimiter k) (hindices : ∀ i ∈ indices, i < 2 ^ 64) :
    Takes delimiter .named (keys.flatMap (delimiter :: ·) ++ indicesText indices) []
      (keys.map .key ++ indices.map .index) false := by
  induction keys with
  | nil => exact takes_indices (.inl rfl) hindices
  | cons k keys ih =>
    have hname :=
      Takes.name (hkeys k List.mem_cons_self) (ih fun k' hk => hkeys k' (List.mem_cons_of_mem k hk))
    have hdot := Takes.dot (.inl rfl) hname
    rwa [← List.append_assoc] at hdot

theorem takesPath_print (hne : keys ≠ []) (hkeys : ∀ k ∈ keys, IsName delimiter k)
    (hindices : ∀ i ∈ indices, i < 2 ^ 64) (vars : Variables) :
    TakesPath delimiter ((DynamicPath.ofKeysIndices delimiter keys indices).print vars) []
      (keys.map .key ++ indices.map .index) false := by
  rw [print_eq hne]
  obtain ⟨k, keys, rfl⟩ := List.exists_cons_of_ne_nil hne
  have hk := hkeys k List.mem_cons_self
  have hname :=
    Takes.name hk (takes_keys (fun k' hk => hkeys k' (List.mem_cons_of_mem k hk)) hindices)
  rw [← List.append_assoc] at hname
  refine .delimiter ?_ hname
  obtain ⟨c, cs, rfl⟩ := List.exists_cons_of_ne_nil hk.ne
  exact List.cons_ne_nil c _

/-- An index, or a key that can be written. -/
def PathItem.Named : PathItem → Prop
  | .index _ => True
  | .key k => IsName 46 k
  | _ => False

structure DynamicPath.Named (p : DynamicPath) : Prop where
  delimiter : p.delimiter = 46
  items : ∀ item ∈ p.pathItems, item.Named

theorem Takes.named {p : PathPlace} {text : Bytes} {items : List PathItem} {flawed : Bool}
    (h : Takes 46 p text params items flawed) (hparams : params = []) :
    ∀ item ∈ items, item.Named := by
  induction h with
  | stop => exact fun _ hitem => absurd hitem List.not_mem_nil
  | name hname _ ih => exact List.forall_mem_cons.mpr ⟨hname, ih hparams⟩
  | index _ _ ih => exact List.forall_mem_cons.mpr ⟨trivial, ih hparams⟩
  | keyParam | indexParam => cases hparams
  | emptyName _ ih | dotAfterBracket _ ih => exact ih hparams
  | dot _ _ ih | openBracket _ _ ih | closeBracket _ _ ih => exact ih hparams
  | percent _ _ _ ih => exact ih hparams

theorem DynamicPath.create_named {path : Bytes} (h : (DynamicPath.create 46 path []).ok = true) :
    (DynamicPath.create 46 path []).Named := by
  have hset := DynamicPath.create_ok [] h
  obtain ⟨flawed, htakes⟩ := (setPath_iff isDelimiter_dot []).mp hset
  refine ⟨by rw [DynamicPath.create_of_set hset], ?_⟩
  cases htakes with
  | empty | lone => exact fun _ hitem => absurd hitem List.not_mem_nil
  | delimiter _ h | bracket _ h | plain _ _ h => exact h.named rfl

def itemsText (vars : Variables) (items : List PathItem) : Bytes :=
  items.flatMap fun item => (if item.isIndex then [] else [46]) ++ item.print vars

theorem itemsText_key (vars : Variables) (k : Bytes) (items : List PathItem) :
    itemsText vars (.key k :: items) = 46 :: (k ++ itemsText vars items) := rfl

theorem itemsText_index (vars : Variables) (i : ℕ) (items : List PathItem) :
    itemsText vars (.index i :: items) = 91 :: (decimal i ++ 93 :: itemsText vars items) := by
  simp only [itemsText, List.flatMap_cons, PathItem.isIndex, if_true, PathItem.print,
    stringCast_natCast, List.nil_append, List.cons_append, List.append_assoc]

theorem itemsText_head (vars : Variables) {items : List PathItem} (h : ∀ item ∈ items, item.Named) :
    ∀ c ∈ (itemsText vars items).head?, c = 46 ∨ c = 91 := by
  cases items with
  | nil => exact fun _ hc => by cases hc
  | cons item items =>
    have hitem := h item List.mem_cons_self
    cases item with
    | key k =>
      rintro c ⟨⟩
      exact .inl rfl
    | index i =>
      rintro c ⟨⟩
      exact .inr rfl
    | undef | indexPtr | keyPtr => exact hitem.elim

theorem itemsText_injective (vars : Variables) {xs ys : List PathItem}
    (hxs : ∀ item ∈ xs, item.Named) (hys : ∀ item ∈ ys, item.Named)
    (h : itemsText vars xs = itemsText vars ys) : xs = ys := by
  induction xs generalizing ys with
  | nil =>
    cases ys with
    | nil => rfl
    | cons y ys =>
      have hy := hys y List.mem_cons_self
      cases y with
      | key | index => cases h
      | undef | indexPtr | keyPtr => exact hy.elim
  | cons x xs ih =>
    obtain ⟨hx, hxs'⟩ := List.forall_mem_cons.mp hxs
    cases ys with
    | nil =>
      cases x with
      | key | index => cases h
      | undef | indexPtr | keyPtr => exact hx.elim
    | cons y ys =>
      obtain ⟨hy, hys'⟩ := List.forall_mem_cons.mp hys
      cases x with
      | undef | indexPtr | keyPtr => exact hx.elim
      | key k =>
        cases y with
        | undef | indexPtr | keyPtr => exact hy.elim
        | index i =>
          rw [itemsText_key, itemsText_index] at h
          exact absurd (List.cons.inj h).1 (by decide)
        | key k' =>
          rw [itemsText_key, itemsText_key] at h
          obtain ⟨rfl, hrest⟩ :=
            IsName.inj hx hy (itemsText_head vars hxs') (itemsText_head vars hys')
              (List.cons.inj h).2
          rw [ih hxs' hys' hrest]
      | index i =>
        cases y with
        | undef | indexPtr | keyPtr => exact hy.elim
        | key k =>
          rw [itemsText_key, itemsText_index] at h
          exact absurd (List.cons.inj h).1 (by decide)
        | index j =>
          rw [itemsText_index, itemsText_index] at h
          obtain ⟨hdigits, hrest⟩ :=
            IsDigits.inj (isDigits_decimal i) (isDigits_decimal j) (List.cons.inj h).2
          rw [decimal_injective hdigits, ih hxs' hys' hrest]

theorem print_index_ne (vars : Variables) {i : ℕ} {xs ys : List PathItem}
    (hys : ∀ item ∈ ys, item.Named) :
    46 :: itemsText vars (.index i :: xs) ≠ itemsText vars ys := by
  intro h
  cases ys with
  | nil => cases h
  | cons y ys =>
    have hy := hys y List.mem_cons_self
    cases y with
    | undef | indexPtr | keyPtr => exact hy.elim
    | index j =>
      rw [itemsText_index vars j] at h
      exact absurd (List.cons.inj h).1 (by decide)
    | key k =>
      rw [itemsText_key, itemsText_index] at h
      exact IsName.cons_ne hy (.inr (.inl rfl)) (List.cons.inj h).2.symm

theorem DynamicPath.Named.eq_of_print {vars : Variables} {p q : DynamicPath} (hp : p.Named)
    (hq : q.Named) (h : p.print vars = q.print vars) : p.pathItems = q.pathItems := by
  have hprint : ∀ {p : DynamicPath}, p.Named → p.print vars =
      (if p.pathItems.head?.any PathItem.isIndex then [46] else []) ++
        itemsText vars p.pathItems := by
    intro p hp
    rw [DynamicPath.print, hp.delimiter]
    rfl
  have hhead : ∀ {xs : List PathItem}, (xs.head?.any PathItem.isIndex) = true →
      (∀ item ∈ xs, item.Named) → ∃ i xs', xs = .index i :: xs' := by
    intro xs hany hxs
    cases xs with
    | nil => cases hany
    | cons x xs =>
      have hx := hxs x List.mem_cons_self
      cases x with
      | index i => exact ⟨i, xs, rfl⟩
      | key k => cases hany
      | undef | indexPtr | keyPtr => exact hx.elim
  rw [hprint hp, hprint hq] at h
  split_ifs at h with hindex hindex' hindex'
  · exact itemsText_injective vars hp.items hq.items (List.cons.inj h).2
  · obtain ⟨i, xs, hxs⟩ := hhead hindex hp.items
    rw [hxs] at h
    exact absurd h (print_index_ne vars hq.items)
  · obtain ⟨i, ys, hys⟩ := hhead hindex' hq.items
    rw [hys] at h
    exact absurd h.symm (print_index_ne vars hp.items)
  · exact itemsText_injective vars hp.items hq.items h

variable {m : Store} {vars : Variables} {root : Dyn}

def Store.follow (m : Store) (keys : List Bytes) (indices : List ℕ) (root : Dyn) : Option Dyn :=
  (keys.foldlM (fun d k => m.getKey k d) root).bind (indices.foldlM fun d i => m.getByIndex i d)

theorem get_ofKeysIndices (delimiter : UInt8) (keys : List Bytes) (indices : List ℕ) :
    (DynamicPath.ofKeysIndices delimiter keys indices).get vars m root =
      m.follow keys indices root := by
  rw [DynamicPath.get, DynamicPath.ofKeysIndices, List.foldlM_append, List.foldlM_map, Store.follow]
  simp only [List.foldlM_map, PathItem.get]
  rfl

end

def DynTree.getKey (key : Bytes) : DynTree → Option DynTree
  | dict entries => get? bytesLt key entries
  | _ => none

def DynTree.getByIndex (pos : ℕ) : DynTree → Option DynTree
  | list items => items[pos]?
  | _ => none

def DynTree.follow (keys : List Bytes) (indices : List ℕ) (root : DynTree) : Option DynTree :=
  (keys.foldlM (fun t k => getKey k t) root).bind (indices.foldlM fun t i => getByIndex i t)

section
variable {m : Store} {P : Set ℕ} {d : Dyn} {t : DynTree}

theorem Shows.getKey (h : Shows m P d t) (key : Bytes) :
    Option.Rel (Shows m P) (m.getKey key d) (t.getKey key) := by
  cases h with
  | plain type data => exact .none
  | dict hobj ha hsorted hkeys hvalues =>
    rw [Store.getKey, Store.lookup, hobj]
    show Option.Rel (Shows m P) (get? bytesLt key _) (get? bytesLt key _)
    cases hx : get? bytesLt key _ with
    | some x =>
      obtain ⟨t, ht⟩ := get?_of_keys hkeys hx
      rw [ht]
      exact .some (hvalues key x t hx ht)
    | none =>
      cases ht : get? bytesLt key _ with
      | none => exact .none
      | some t =>
        obtain ⟨x, hx'⟩ := get?_of_keys hkeys.symm ht
        cases hx.symm.trans hx'
  | string hobj | oid hobj | list hobj | table hobj =>
    rw [Store.getKey, Store.lookup, hobj]
    exact .none

theorem Shows.getByIndex (h : Shows m P d t) (pos : ℕ) :
    Option.Rel (Shows m P) (m.getByIndex pos d) (t.getByIndex pos) := by
  cases h with
  | plain type data => exact .none
  | @list a items ts hobj ha hlen hitems =>
    rw [Store.getByIndex, Store.get, hobj]
    show Option.Rel (Shows m P) _[pos]? _[pos]?
    rcases Nat.lt_or_ge pos items.length with hlt | hge
    · rw [List.getElem?_eq_getElem hlt, List.getElem?_eq_getElem (hlen ▸ hlt)]
      exact .some
        (hitems pos _ _ (List.getElem?_eq_getElem hlt) (List.getElem?_eq_getElem (hlen ▸ hlt)))
    · rw [List.getElem?_eq_none hge, List.getElem?_eq_none (hlen ▸ hge)]
      exact .none
  | string hobj | oid hobj | dict hobj | table hobj =>
    rw [Store.getByIndex, Store.get, hobj]
    exact .none

theorem Shows.follow (h : Shows m P d t) (keys : List Bytes) (indices : List ℕ) :
    Option.Rel (Shows m P) (m.follow keys indices d) (t.follow keys indices) := by
  have hkeys : Option.Rel (Shows m P) (keys.foldlM (fun d k => m.getKey k d) d)
      (keys.foldlM (fun t k => t.getKey k) t) :=
    Runs.rel_foldlM (fun d t k k' hshows (hk : k = k') => hk ▸ hshows.getKey k)
      (List.forall₂_refl keys) h
  exact Runs.rel_bind hkeys fun d t hshows =>
    Runs.rel_foldlM (fun d t i i' hshows (hi : i = i') => hi ▸ hshows.getByIndex i)
      (List.forall₂_refl indices) hshows

end

theorem printed_path_parsed {delimiter : UInt8} (hd : IsDelimiter delimiter) {keys : List Bytes}
    (hne : keys ≠ []) (hkeys : ∀ k ∈ keys, IsName delimiter k) {indices : List ℕ}
    (hindices : ∀ i ∈ indices, i < 2 ^ 64) (vars : Variables) (m : Store) (root : Dyn) :
    let parsed :=
      DynamicPath.create delimiter ((DynamicPath.ofKeysIndices delimiter keys indices).print vars)
        []
    parsed.ok = true ∧ parsed.pathItems = keys.map .key ++ indices.map .index ∧
      parsed.get vars m root = m.follow keys indices root ∧
      ∀ (P : Set ℕ) (t : DynTree), Shows m P root t →
        Option.Rel (Shows m P) (parsed.get vars m root) (t.follow keys indices) := by
  intro parsed
  have hset := (setPath_iff hd []).mpr ⟨false, takesPath_print hne hkeys hindices vars⟩
  have hparsed : parsed = DynamicPath.ofKeysIndices delimiter keys indices :=
    DynamicPath.create_of_set hset
  rw [hparsed, get_ofKeysIndices]
  exact ⟨rfl, rfl, rfl, fun P t hshows => hshows.follow keys indices⟩

/-- The path `.a[7]`. -/
theorem printed_path_parsed_a_7 :
    (DynamicPath.create 46 (ascii ".a[7]") []).pathItems = [.key (ascii "a"), .index 7] := by
  have hne : [ascii "a"] ≠ [] := List.cons_ne_nil _ _
  have hkeys : ∀ k ∈ [ascii "a"], IsName 46 k := by simpa using isName_a
  have hindices : ∀ i ∈ [7], i < 2 ^ 64 := by simp
  exact (printed_path_parsed isDelimiter_dot hne hkeys hindices ⟨fun _ => [], fun _ => 0⟩
    ⟨0, fun _ => none⟩ (.plain .undef 0)).2.1

end Nkit
