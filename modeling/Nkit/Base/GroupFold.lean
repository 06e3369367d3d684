import Nkit.Base.OrderedMap
import Mathlib.Data.List.Induction

/-! Folding a sequence of records into an ordered map of groups.  Each record updates the
value of its group, which starts from `init` when the first record of the group arrives. -/

namespace GroupFold
open OrderedMap

variable {R K V : Type*} (lt : K → K → Bool) (key : R → K) (init : V) (step : V → R → V)

def enter (m : List (K × V)) (r : R) : List (K × V) := update lt (key r) init (step · r) m

def fold (rows : List R) : List (K × V) := rows.foldl (enter lt key init step) []

/-- The records whose key ties with `k`, in order. -/
def members (rows : List R) (k : K) : List R := rows.filter fun r => equiv lt (key r) k

variable {lt key init step}

theorem fold_append (rows : List R) (r : R) :
    fold lt key init step (rows ++ [r]) = enter lt key init step (fold lt key init step rows)
      r := by
  rw [fold, List.foldl_append]
  rfl

theorem fold_map {S : Type*} (f : S → R) (rows : List S) :
    fold lt key init step (rows.map f) = fold lt (fun r => key (f r)) init (fun v r => step v (f r))
      rows := by
  rw [fold, List.foldl_map]
  rfl

theorem fold_congr {key' : R → K} {rows : List R} (hkey : ∀ r ∈ rows, key r = key' r) :
    fold lt key init step rows = fold lt key' init step rows := by
  refine List.foldl_ext _ _ _ fun m r hr => ?_
  rw [enter, enter, hkey r hr]

theorem fold_sorted (h : StrictWeak lt) (rows : List R) :
    Sorted lt (fold lt key init step rows) := by
  induction rows using List.reverseRecOn with
  | nil => exact sorted_nil lt
  | append_singleton rows r ih =>
    rw [fold_append]
    exact update_sorted h ih _ _ _

theorem key_of_mem_fold {rows : List R} {e : K × V} (he : e ∈ fold lt key init step rows) :
    ∃ r ∈ rows, e.1 = key r := by
  induction rows using List.reverseRecOn generalizing e with
  | nil => cases he
  | append_singleton rows r ih =>
    rw [fold_append] at he
    rcases mem_keys_update he with hnew | ⟨e', he', hold⟩
    · exact ⟨r, by simp, hnew⟩
    · obtain ⟨r', hr', hkey⟩ := ih he'
      exact ⟨r', List.mem_append_left _ hr', hold ▸ hkey⟩

theorem keys_fold_congr {R' V' : Type*} {key' : R' → K} {init' : V'} {step' : V' → R' → V'}
    {rows : List R} {rows' : List R'} (hkeys : rows.map key = rows'.map key') :
    (fold lt key init step rows).map Prod.fst = (fold lt key' init' step' rows').map Prod.fst := by
  induction rows using List.reverseRecOn generalizing rows' with
  | nil =>
    rw [List.map_nil, eq_comm, List.map_eq_nil_iff] at hkeys
    rw [hkeys]
    rfl
  | append_singleton rows r ih =>
    obtain rfl | ⟨rows', r', rfl⟩ := List.eq_nil_or_concat' rows'
    · simp at hkeys
    · rw [List.map_append, List.map_append] at hkeys
      obtain ⟨hrows, hlast⟩ := List.append_inj' hkeys rfl
      rw [fold_append, fold_append, enter, enter, (List.cons.inj hlast).1]
      exact keys_update_congr (ih hrows) _ _ _ _ _

theorem members_append (rows : List R) (r : R) (k : K) :
    members lt key (rows ++ [r]) k =
      if equiv lt (key r) k = true then members lt key rows k ++ [r]
        else members lt key rows k := by
  rw [members, List.filter_append]
  cases hr : equiv lt (key r) k with
  | true => simp [members, hr]
  | false => simp [members, hr]

theorem get?_fold (h : StrictWeak lt) (rows : List R) (k : K) :
    get? lt k (fold lt key init step rows) =
      if members lt key rows k = [] then none
        else some ((members lt key rows k).foldl step init) := by
  induction rows using List.reverseRecOn with
  | nil => rfl
  | append_singleton rows r ih =>
    rw [fold_append, enter, get?_update h, members_append, equiv_comm]
    by_cases hr : equiv lt k (key r) = true
    · have htie : get? lt (key r) (fold lt key init step rows) =
          get? lt k (fold lt key init step rows) := (get?_congr h hr _).symm
      rw [if_pos hr, if_pos hr, if_neg (by simp), htie, ih, List.foldl_append]
      split_ifs with hnone
      · rw [hnone]
        rfl
      · rfl
    · rw [if_neg hr, if_neg hr, ih]

theorem exists_group (h : StrictWeak lt) {rows : List R} {r : R} (hr : r ∈ rows) :
    ∃ e ∈ fold lt key init step rows, equiv lt (key r) e.1 = true := by
  have hmem : r ∈ members lt key rows (key r) := by simp [members, hr, h.equiv_refl]
  have hget : get? lt (key r) (fold lt key init step rows) =
      some ((members lt key rows (key r)).foldl step init) := by
    rw [get?_fold h, if_neg (List.ne_nil_of_mem hmem)]
  obtain ⟨k, htie, hk⟩ := (get?_eq_some_iff h (fold_sorted h rows)).mp hget
  exact ⟨_, hk, htie⟩

theorem value_of_mem_fold (h : StrictWeak lt) {rows : List R} {e : K × V}
    (he : e ∈ fold lt key init step rows) : e.2 = (members lt key rows e.1).foldl step init := by
  have hget := get?_eq_some_of_mem h (fold_sorted h rows) he
  rw [get?_fold h] at hget
  split_ifs at hget
  exact (Option.some.inj hget).symm

theorem length_update (k : K) (d : V) (f : V → V) (m : List (K × V)) :
    (update lt k d f m).length = if get? lt k m = none then m.length + 1 else m.length := by
  induction m with
  | nil => rfl
  | cons e m ih =>
    rw [update, get?_cons]
    split_ifs <;> simp_all

def collect (lt : K → K → Bool) (key : R → K) (rows : List R) : List (K × List R) :=
  fold lt key [] (fun rs r => rs ++ [r]) rows

theorem collect_append (rows : List R) (r : R) :
    collect lt key (rows ++ [r]) = update lt (key r) [] (· ++ [r]) (collect lt key rows) :=
      fold_append rows r

theorem fold_eq_collect (rows : List R) :
    fold lt key init step rows = (collect lt key rows).map fun e => (e.1, e.2.foldl step init) := by
  induction rows using List.reverseRecOn with
  | nil => rfl
  | append_singleton rows r ih =>
    have hstep : ∀ rs : List R, (rs ++ [r]).foldl step init = step (rs.foldl step init) r := by
      intro rs
      rw [List.foldl_append]
      rfl
    rw [collect_append, fold_append, ih, enter]
    exact (map_values_update (·.foldl step init) (step · r) hstep (key r) [] _).symm

theorem mem_collect (rows : List R) :
    (∀ e ∈ collect lt key rows, e.2 ≠ [] ∧ ∀ r ∈ e.2, r ∈ rows) ∧
      ∀ r ∈ rows, ∃ e ∈ collect lt key rows, r ∈ e.2 := by
  induction rows using List.reverseRecOn with
  | nil => exact ⟨by simp [collect, fold], by simp⟩
  | append_singleton rows r ih =>
    rw [collect_append]
    refine ⟨fun e he => ?_, fun r' hr' => ?_⟩
    · obtain hval | hold | ⟨e', he', hval⟩ := mem_update_cases he
      · rw [hval]
        simp
      · exact ⟨(ih.1 e hold).1, fun r' hr' => List.mem_append_left _ ((ih.1 e hold).2 r' hr')⟩
      · rw [hval]
        refine ⟨by simp, fun r' hr' => ?_⟩
        exact (List.mem_append.mp hr').elim (fun h => List.mem_append_left _ ((ih.1 e' he').2 r' h))
          (List.mem_append_right _)
    · have hupdate := exists_mem_update lt (key r) [] (· ++ [r]) (collect lt key rows)
      obtain hold | hnew := List.mem_append.mp hr'
      · obtain ⟨e, he, hre⟩ := ih.2 r' hold
        obtain ⟨e', he', hval⟩ := hupdate.2 e he
        refine ⟨e', he', ?_⟩
        rcases hval with hval | hval <;> rw [hval] <;> simp [hre]
      · obtain rfl := List.mem_singleton.mp hnew
        obtain ⟨e, he, v, hval⟩ := hupdate.1
        exact ⟨e, he, by rw [hval]; simp⟩

end GroupFold
