import Nkit.Base.FirstOccurrences
import Nkit.Xml.Elements
import Nkit.Xml.Formatting

/-! The keys of a dict in the order in which its members are written (`Convert`). -/

namespace Nkit
open OrderedMap

namespace Var2XmlOptions

def isMember (o : Var2XmlOptions) (key : Bytes) : Bool := !(o.attrKey == key || o.textKey == key)

def memberKeys {V : Type*} (o : Var2XmlOptions) (entries : List (Bytes × V)) : List Bytes :=
  (o.priorityList.filter fun key => o.isMember key && (get? bytesLt key entries).isSome) ++
    (entries.map Prod.fst).filter fun key => o.isMember key && !o.priorityList.contains key

def withPriority (o : Var2XmlOptions) (keys : List Bytes) : Var2XmlOptions :=
  { o with priorityList := keys }

variable {V W : Type*} {o : Var2XmlOptions} {entries : List (Bytes × V)}

theorem get?_map_entries (hs : Sorted bytesLt entries) (g : Bytes → V → W) (key : Bytes) :
    get? bytesLt key (entries.map fun e => (e.1, g e.1 e.2)) =
      (get? bytesLt key entries).map (g key) := by
  induction entries with
  | nil => rfl
  | cons e entries ih =>
    rw [List.map_cons, get?_cons, get?_cons, ih (sorted_cons.mp hs).2]
    split_ifs with hlt hgt
    · rfl
    · rfl
    · have hkey : key = e.1 := equiv_bytesLt.mp (by simp [equiv, hlt, hgt])
      rw [hkey, Option.map_some]

theorem members_eq (hs : Sorted bytesLt entries) (g : Bytes → V → W) (none' : W) :
    (o.members (entries.map fun e => (e.1, g e.1 e.2))).map Prod.snd =
      (o.memberKeys entries).map fun key =>
        ((get? bytesLt key entries).map (g key)).getD none' := by
  rw [members, memberKeys, List.map_append, List.map_append]
  congr 1
  · induction o.priorityList with
    | nil => rfl
    | cons key keys ih =>
      rw [List.filterMap_cons, List.filter_cons, get?_map_entries hs]
      by_cases hskip : (o.attrKey == key || o.textKey == key) = true
      · simp only [hskip, if_true, isMember, Bool.not_true, Bool.false_and, Bool.false_eq_true,
          if_false]
        exact ih
      · rw [if_neg hskip]
        cases hget : get? bytesLt key entries with
        | none =>
          simp only [Option.map_none, Option.isSome_none, Bool.and_false, Bool.false_eq_true,
            if_false]
          exact ih
        | some v =>
          have hmember : o.isMember key = true := by
            rw [isMember, Bool.not_eq_true']
            exact Bool.eq_false_iff.mpr hskip
          simp only [Option.map_some, hmember, Option.isSome_some, Bool.and_true, if_true,
            List.map_cons, hget, Option.getD_some]
          rw [ih]
  · rw [List.filter_map, List.filter_map, List.map_map, List.map_map]
    have hpred :
      ((fun e : Bytes × W => !(o.attrKey == e.1 || o.textKey == e.1 || o.priorityList.contains e.1))
        ∘
        fun e : Bytes × V => (e.1, g e.1 e.2)) =
          (fun key => o.isMember key && !o.priorityList.contains key) ∘ Prod.fst := by
      funext e
      simp only [Function.comp, isMember, Bool.not_or]
    rw [hpred]
    apply List.map_congr_left
    intro e he
    have hget := get?_eq_some_of_mem bytesLt_strictWeak hs (List.mem_of_mem_filter he)
    simp only [Function.comp, hget, Option.map_some, Option.getD_some]

theorem members_isEmpty (hs : Sorted bytesLt entries) (g : Bytes → V → W) (none' : W) :
    (o.members (entries.map fun e => (e.1, g e.1 e.2))).isEmpty =
      (o.memberKeys entries).isEmpty := by
  rw [← List.isEmpty_map (f := Prod.snd), members_eq hs g none', List.isEmpty_map]

theorem mem_memberKeys (hs : Sorted bytesLt entries) {key : Bytes} :
    key ∈ o.memberKeys entries ↔ o.isMember key = true ∧ ∃ v, (key, v) ∈ entries := by
  have hfound : (∃ v, (key, v) ∈ entries) ↔ (get? bytesLt key entries).isSome = true := by
    rw [Option.isSome_iff_exists]
    constructor
    · rintro ⟨v, hv⟩
      exact ⟨v, get?_eq_some_of_mem bytesLt_strictWeak hs hv⟩
    · rintro ⟨v, hv⟩
      obtain ⟨key', hkey, hmem⟩ := (get?_eq_some_iff bytesLt_strictWeak hs).mp hv
      obtain rfl := equiv_bytesLt.mp hkey
      exact ⟨v, hmem⟩
  rw [memberKeys, List.mem_append, List.mem_filter, List.mem_filter, List.mem_map, hfound]
  by_cases hlisted : key ∈ o.priorityList
  · simp [hlisted]
  · rw [← hfound]
    simp only [hlisted, false_and, false_or, Bool.and_eq_true, Bool.not_eq_true',
      List.contains_eq_mem, decide_false, and_true]
    constructor
    · rintro ⟨⟨e, he, rfl⟩, hmember⟩
      exact ⟨hmember, e.2, he⟩
    · rintro ⟨hmember, v, hv⟩
      exact ⟨⟨(key, v), hv, rfl⟩, hmember⟩

theorem memberKeys_once (o : Var2XmlOptions) (entries : List (Bytes × V)) :
    (o.withPriority o.priorityList.eraseDups).memberKeys entries =
      (o.priorityList.filter fun key => o.isMember key &&
        (get? bytesLt key entries).isSome).eraseDups ++
        (entries.map Prod.fst).filter fun key =>
          o.isMember key && !o.priorityList.contains key := by
  rw [FirstOccurrences.filter_eq, memberKeys]
  congr 1
  apply List.filter_congr
  intro key _
  have hcontains : o.priorityList.eraseDups.contains key = o.priorityList.contains key := by
    rw [Bool.eq_iff_iff, List.contains_iff_mem, List.contains_iff_mem]
    exact FirstOccurrences.mem_iff
  exact congrArg (o.isMember key && !·) hcontains

theorem nodup_memberKeys (hs : Sorted bytesLt entries) (hnodup : o.priorityList.Nodup) :
    (o.memberKeys entries).Nodup := by
  apply List.Nodup.append (hnodup.filter _) ((nodup_keys hs).filter _)
  intro key hfirst hrest
  have hother := (List.mem_filter.mp hrest).2
  simp only [List.contains_eq_mem, (List.mem_filter.mp hfirst).1, decide_true, Bool.not_true,
    Bool.and_false, Bool.false_eq_true] at hother

theorem nodup_memberKeys_once (o : Var2XmlOptions) (hs : Sorted bytesLt entries) :
    ((o.withPriority o.priorityList.eraseDups).memberKeys entries).Nodup :=
  nodup_memberKeys hs (FirstOccurrences.nodup _)

theorem memberKeys_perm (o : Var2XmlOptions) (hs : Sorted bytesLt entries) :
    ((o.withPriority o.priorityList.eraseDups).memberKeys entries).Perm
      ((o.withPriority []).memberKeys entries) := by
  have hplain : ((o.withPriority []).memberKeys entries).Nodup := (nodup_keys hs).filter _
  rw [List.perm_ext_iff_of_nodup (o.nodup_memberKeys_once hs) hplain]
  intro key
  rw [mem_memberKeys hs, mem_memberKeys hs]
  rfl

theorem foldr_memberKeys {B : Type*} {f : Bytes → B → B}
    (h : ∀ key ∈ o.memberKeys entries, 1 < o.priorityList.count key → ∀ b, f key b = b) (b : B) :
    ((o.withPriority o.priorityList.eraseDups).memberKeys entries).foldr f b =
      (o.memberKeys entries).foldr f b := by
  rw [memberKeys_once, memberKeys, List.foldr_append, List.foldr_append]
  apply FirstOccurrences.foldr_eq
  intro key hcount
  have hmem := List.count_pos_iff.mp (Nat.zero_lt_of_lt hcount)
  have hle := List.Sublist.count_le key (List.filter_sublist (l := o.priorityList)
    (p := fun key => o.isMember key && (get? bytesLt key entries).isSome))
  exact h key (List.mem_append_left _ hmem) (hcount.trans_le hle)

theorem sum_memberKeys_lt {g : Bytes → ℕ} {key : Bytes} (hkey : key ∈ o.memberKeys entries)
    (hcount : 1 < o.priorityList.count key) (hg : 0 < g key) :
    (((o.withPriority o.priorityList.eraseDups).memberKeys entries).map g).sum <
      ((o.memberKeys entries).map g).sum := by
  have hlisted := List.count_pos_iff.mp (Nat.zero_lt_of_lt hcount)
  rw [memberKeys_once, memberKeys, List.map_append, List.map_append, List.sum_append,
    List.sum_append]
  apply Nat.add_lt_add_right
  apply FirstOccurrences.sum_lt (k := key) _ hg
  have hfound : (o.isMember key && (get? bytesLt key entries).isSome) = true := by
    rw [memberKeys, List.mem_append] at hkey
    rcases hkey with hkey | hkey
    · exact (List.mem_filter.mp hkey).2
    · have hother := (List.mem_filter.mp hkey).2
      simp only [List.contains_eq_mem, hlisted, decide_true, Bool.not_true, Bool.and_false,
        Bool.false_eq_true] at hother
  rwa [List.count_filter (p := fun key => o.isMember key && (get? bytesLt key entries).isSome)
    hfound]

theorem mem_memberKeys_once {key : Bytes} (hs : Sorted bytesLt entries) :
    key ∈ (o.withPriority o.priorityList.eraseDups).memberKeys entries ↔
      key ∈ o.memberKeys entries := by
  rw [mem_memberKeys hs, mem_memberKeys hs]
  rfl

theorem memberKeys_isEmpty (hs : Sorted bytesLt entries) (keys keys' : List Bytes) :
    ((o.withPriority keys).memberKeys entries).isEmpty =
      ((o.withPriority keys').memberKeys entries).isEmpty := by
  rw [Bool.eq_iff_iff, List.isEmpty_iff, List.isEmpty_iff, List.eq_nil_iff_forall_not_mem,
    List.eq_nil_iff_forall_not_mem]
  simp only [mem_memberKeys hs]
  rfl

end Var2XmlOptions
end Nkit
