import Nkit.Base.InvertedIndex
import Mathlib.Data.List.InsertIdx

/-! Keeping an index of a sequence of keys while the sequence is appended to, spliced and
overwritten.  Row number `i` carries the key at position `i`. -/

namespace InvertedIndex
open OrderedMap Renumber

variable {K : Type*} {lt : K → K → Bool} {keys : List K} {m : List (K × List ℕ)}

abbrev IndexesSeq (lt : K → K → Bool) (keys : List K) (m : List (K × List ℕ)) : Prop :=
  Indexes lt (fun i => keys[i]?) m

theorem IndexesSeq.lt_length (hm : IndexesSeq lt keys m) {k : K} {x : ℕ} (hx : x ∈ bucket lt m k) :
    x < keys.length := by
  obtain ⟨k', hk', _⟩ := (hm.mem_iff k x).mp hx
  exact (List.getElem?_eq_some_iff.mp hk').1

theorem IndexesSeq.perm_range (h : StrictWeak lt) (hm : IndexesSeq lt keys m) :
    (m.flatMap Prod.snd).Perm (List.range keys.length) := by
  rw [List.perm_ext_iff_of_nodup (hm.flatten_nodup h) List.nodup_range]
  intro x
  rw [hm.mem_flatten h, List.mem_range]
  simp

theorem IndexesSeq.append (h : StrictWeak lt) (hm : IndexesSeq lt keys m) (k : K) :
    IndexesSeq lt (keys ++ [k]) (update lt k [] (· ++ [keys.length]) m) := by
  have hpush := hm.push h (r := keys.length) (by simp) k (f := (· ++ [keys.length]))
    fun rows => List.perm_append_singleton _ _
  convert hpush using 1
  funext i
  by_cases hi : i = keys.length
  · subst hi
    simp
  · rw [Function.update_of_ne hi, List.getElem?_append]
    split_ifs with hlt
    · rfl
    · rw [List.getElem?_eq_none (by simp; omega), List.getElem?_eq_none (by omega)]

theorem ascending_append (h : StrictWeak lt) (hm : IndexesSeq lt keys m) (ha : Ascending lt m)
    (k : K) : Ascending lt (update lt k [] (· ++ [keys.length]) m) := by
  intro k'
  rw [bucket_update h]
  split_ifs
  · rw [List.pairwise_append]
    refine ⟨ha k, List.pairwise_singleton _ _, ?_⟩
    intro x hx y hy
    rw [List.mem_singleton.mp hy]
    exact hm.lt_length hx
  · exact ha k'

theorem renumberFrom_nil (f : ℕ → ℕ) (r : ℕ) : renumberFrom f r [] = [] := by
  simp [renumberFrom]

theorem renumber_up {r : ℕ} {rows : List ℕ} (hp : Partitioned r rows) :
    renumberFrom (· + 1) r rows = rows.map (shiftUp r) := renumberFrom_eq_map hp _

theorem forall_bucket {P : List ℕ → Prop} (h : StrictWeak lt) (hs : Sorted lt m) (hnil : P [])
    (hm : ∀ e ∈ m, P e.2) (k : K) : P (bucket lt m k) := by
  unfold bucket
  cases hk : get? lt k m with
  | none => exact hnil
  | some rows =>
    obtain ⟨k', _, he⟩ := (get?_eq_some_iff h hs).mp hk
    exact hm _ he

theorem IndexesSeq.insertIdx (h : StrictWeak lt) (hm : IndexesSeq lt keys m) {r : ℕ}
    (hr : r ≤ keys.length) (hp : ∀ e ∈ m, Partitioned r e.2) (k : K) :
    IndexesSeq lt (keys.insertIdx r k)
      (update lt k [] (fun row => (row ++ [r]).insertionSort (· ≤ ·))
        (mapValues (renumberFrom (· + 1) r) m)) := by
  have hpart := forall_bucket (P := Partitioned r) h hm.sorted List.Pairwise.nil hp
  -- the sequence with a gap at `r`
  have hgap : Indexes lt (Function.update (fun i => (keys.insertIdx r k)[i]?) r none)
      (mapValues (renumberFrom (· + 1) r) m) := by
    refine hm.relabel (shiftUp r) (fun k' => renumber_up (hpart k')) (renumberFrom_nil _ r) ?_ ?_
      fun x y _ _ hxy => shiftUp_injective r hxy
    · intro x k' hx
      rw [Function.update_of_ne (shiftUp_ne r x), List.getElem?_insertIdx, ← hx]
      unfold shiftUp
      split_ifs <;> first | rfl | omega
    · intro y k' hy
      by_cases hyr : y = r
      · subst hyr
        simp at hy
      · rw [Function.update_of_ne hyr, List.getElem?_insertIdx, if_neg hyr] at hy
        refine ⟨if y < r then y else y - 1, ?_, ?_⟩
        · unfold shiftUp
          split_ifs <;> omega
        · rw [← hy]
          split_ifs <;> rfl
  have hpush := hgap.push h (r := r) (Function.update_self _ _ _) k
    (f := fun row => (row ++ [r]).insertionSort (· ≤ ·))
    fun rows => (List.perm_insertionSort _ _).trans (List.perm_append_singleton _ _)
  have hkeys : (fun i => (keys.insertIdx r k)[i]?) = Function.update (Function.update
      (fun i => (keys.insertIdx r k)[i]?) r none) r (some k) := by
    rw [Function.update_idem]
    funext i
    by_cases hi : i = r
    · subst hi
      rw [Function.update_self, List.getElem?_insertIdx_self, if_pos hr]
    · rw [Function.update_of_ne hi]
  rw [IndexesSeq, hkeys]
  exact hpush

theorem ascending_insertIdx (h : StrictWeak lt) (ha : Ascending lt m) (r : ℕ) (k : K) :
    Ascending lt (update lt k [] (fun row => (row ++ [r]).insertionSort (· ≤ ·))
      (mapValues (renumberFrom (· + 1) r) m)) := by
  have hup : ∀ k', bucket lt (mapValues (renumberFrom (· + 1) r) m) k' =
      (bucket lt m k').map (shiftUp r) := fun k' => by
    rw [bucket_mapValues (renumberFrom_nil _ r), renumber_up (partitioned_of_ascending (ha k') r)]
  have hasc : ∀ k', ((bucket lt m k').map (shiftUp r)).Pairwise (· < ·) := fun k' => by
    rw [List.pairwise_map]
    exact (ha k').imp shiftUp_lt
  intro k'
  rw [bucket_update h]
  split_ifs
  · rw [hup]
    have hnodup : ((bucket lt m k).map (shiftUp r) ++ [r]).Nodup := by
      rw [List.nodup_append]
      refine ⟨(hasc k).imp fun hab => hab.ne, List.nodup_singleton r, ?_⟩
      intro x hx y hy hxy
      obtain ⟨x', _, rfl⟩ := List.mem_map.mp hx
      rw [List.mem_singleton.mp hy] at hxy
      exact shiftUp_ne r x' hxy
    have hsorted := List.pairwise_insertionSort (· ≤ ·) ((bucket lt m k).map (shiftUp r) ++ [r])
    have hnodup' := (List.perm_insertionSort (· ≤ ·) _).nodup_iff.mpr hnodup
    exact hsorted.imp₂ (fun a b hle hne => lt_of_le_of_ne hle hne) hnodup'
  · rw [hup]
    exact hasc k'

/-- Drops `r` from the bucket `rows` of `k`, and the bucket with its last number. -/
def leave (lt : K → K → Bool) (k : K) (r : ℕ) (rows : List ℕ) (m : List (K × List ℕ)) :
    List (K × List ℕ) :=
  if (rows.erase r).length = 0 then OrderedMap.erase lt k m
  else update lt k [] (fun _ => rows.erase r) m

theorem leave_sorted (h : StrictWeak lt) (hs : Sorted lt m) (k : K) (r : ℕ) (rows : List ℕ) :
    Sorted lt (leave lt k r rows m) := by
  unfold leave
  split_ifs
  · exact erase_sorted hs k
  · exact update_sorted h hs k _ _

theorem bucket_leave (h : StrictWeak lt) (hs : Sorted lt m) (k k' : K) (r : ℕ) :
    bucket lt (leave lt k r (bucket lt m k) m) k' =
      if equiv lt k k' then (bucket lt m k).erase r else bucket lt m k' := by
  unfold leave
  split_ifs with hz he he
  · rw [bucket_erase h hs, if_pos he, List.length_eq_zero_iff.mp hz]
  · rw [bucket_erase h hs, if_neg he]
  · rw [bucket_update h, if_pos he]
  · rw [bucket_update h, if_neg he]

theorem Indexes.leave (h : StrictWeak lt) {keyAt : ℕ → Option K} (hm : Indexes lt keyAt m) {r : ℕ}
    {k : K} (hr : keyAt r = some k) :
    Indexes lt (Function.update keyAt r none) (leave lt k r (bucket lt m k) m) := by
  refine hm.drop h hr (leave_sorted h hm.sorted k r _) ?_ fun k' => bucket_leave h hm.sorted k k' r
  intro k'
  unfold InvertedIndex.leave
  split_ifs with hz
  · rw [get?_erase h hm.sorted]
    split_ifs
    · simp
    · exact hm.nonempty k'
  · rw [get?_update h]
    split_ifs
    · intro hnil
      exact hz (by rw [Option.some.inj hnil, List.length_nil])
    · exact hm.nonempty k'

theorem mem_leave (h : StrictWeak lt) (hs : Sorted lt m) {k : K} {r : ℕ}
    (hr : r ∈ bucket lt m k) {e : K × List ℕ} (he : e ∈ leave lt k r (bucket lt m k) m) :
    ∃ e' ∈ m, e'.1 = e.1 ∧ ¬ (e'.2 = [r] ∧ equiv lt k e'.1 = true) := by
  unfold leave at he
  split_ifs at he with hz
  · have htie := not_equiv_of_mem_erase h hs he
    exact ⟨e, erase_subset he, rfl, fun hboth => by simp [htie] at hboth⟩
  · have hkeys := keys_update (get?_of_mem_bucket hr) [] fun _ => (bucket lt m k).erase r
    have hmem : e.1 ∈ m.map Prod.fst := by
      rw [← hkeys]
      exact List.mem_map_of_mem he
    obtain ⟨e', he', hkey⟩ := List.mem_map.mp hmem
    refine ⟨e', he', hkey, ?_⟩
    rintro ⟨hsingle, htie⟩
    have hbucket := bucket_of_mem h hs he'
    rw [← bucket_congr h htie, hsingle] at hbucket
    rw [hbucket] at hz
    simp at hz

theorem renumber_down {dec : ℕ → ℕ} (hdec : ∀ x, 0 < x → dec x = x - 1) {r : ℕ} {rows : List ℕ}
    (hp : Partitioned r rows) (hr : r ∉ rows) :
    renumberFrom dec r rows = rows.map (shiftDown r) := by
  rw [renumberFrom_eq_map hp]
  refine List.map_congr_left fun x hx => ?_
  have hxr : x ≠ r := fun he => hr (he ▸ hx)
  unfold shiftDown
  split_ifs with hlt
  · rfl
  · exact hdec x (by omega)

/-- Deleting row `r` closes the gap in every bucket. -/
theorem IndexesSeq.eraseIdx (h : StrictWeak lt) (hm : IndexesSeq lt keys m) {r : ℕ} {k : K}
    (hk : keys[r]? = some k) {dec : ℕ → ℕ} (hdec : ∀ x, 0 < x → dec x = x - 1)
    (hp : ∀ e ∈ m, Partitioned r (e.2.erase r)) :
    IndexesSeq lt (keys.eraseIdx r)
      (mapValues (renumberFrom dec r) (InvertedIndex.leave lt k r (bucket lt m k) m)) := by
  have hgone := hm.leave h hk
  have hpart := forall_bucket (P := fun rows => Partitioned r (rows.erase r)) h hm.sorted
    List.Pairwise.nil hp
  have hr : ∀ k', r ∉ bucket lt (InvertedIndex.leave lt k r (bucket lt m k) m) k' := by
    intro k' hmem
    obtain ⟨k'', hk'', _⟩ := (hgone.mem_iff k' r).mp hmem
    rw [Function.update_self] at hk''
    cases hk''
  have hpart' :
      ∀ k', Partitioned r (bucket lt (InvertedIndex.leave lt k r (bucket lt m k) m) k') := by
    intro k'
    have hk' := hr k'
    rw [bucket_leave h hm.sorted] at hk' ⊢
    split_ifs at hk' ⊢ with he
    · exact hpart k
    · rw [← List.erase_of_not_mem hk']
      exact hpart k'
  refine hgone.relabel (shiftDown r) (fun k' => renumber_down hdec (hpart' k') (hr k'))
    (renumberFrom_nil _ r) ?_ ?_ ?_
  · intro x k' hx
    by_cases hxr : x = r
    · subst hxr
      simp at hx
    · rw [Function.update_of_ne hxr] at hx
      rw [List.getElem?_eraseIdx, ← hx]
      unfold shiftDown
      split_ifs <;> first | rfl | omega | (congr 1; omega)
  · intro y k' hy
    rw [List.getElem?_eraseIdx] at hy
    refine ⟨if y < r then y else y + 1, ?_, ?_⟩
    · unfold shiftDown
      split_ifs <;> omega
    · rw [Function.update_of_ne (by split_ifs <;> omega), ← hy]
      split_ifs <;> rfl
  · intro x y hx hy hxy
    have hne : ∀ z, Function.update (fun i => keys[i]?) r none z ≠ none → z ≠ r := by
      rintro z hz rfl
      simp at hz
    have hxr := hne x hx
    have hyr := hne y hy
    unfold shiftDown at hxy
    split_ifs at hxy <;> omega

theorem ascending_leave (h : StrictWeak lt) (hs : Sorted lt m) (ha : Ascending lt m) (k : K)
    (r : ℕ) :
    Ascending lt (leave lt k r (bucket lt m k) m) := by
  intro k'
  rw [bucket_leave h hs]
  split_ifs
  · exact (ha k).sublist List.erase_sublist
  · exact ha k'

theorem ascending_eraseIdx (h : StrictWeak lt) (hm : IndexesSeq lt keys m) (ha : Ascending lt m)
    {r : ℕ} {k : K} (hk : keys[r]? = some k) {dec : ℕ → ℕ} (hdec : ∀ x, 0 < x → dec x = x - 1) :
    Ascending lt (mapValues (renumberFrom dec r) (leave lt k r (bucket lt m k) m)) := by
  have hgone := hm.leave h hk
  have ha' := ascending_leave h hm.sorted ha k r
  intro k'
  have hr : r ∉ bucket lt (leave lt k r (bucket lt m k) m) k' := by
    intro hmem
    obtain ⟨k'', hk'', _⟩ := (hgone.mem_iff k' r).mp hmem
    rw [Function.update_self] at hk''
    cases hk''
  rw [bucket_mapValues (renumberFrom_nil _ r),
    renumber_down hdec (partitioned_of_ascending (ha' k') r) hr, List.pairwise_map]
  refine (ha' k').imp_of_mem ?_
  intro x y hx hy hxy
  exact shiftDown_lt (fun he => hr (he ▸ hx)) (fun he => hr (he ▸ hy)) hxy

theorem IndexesSeq.set (h : StrictWeak lt) (hm : IndexesSeq lt keys m) {r : ℕ} {k : K}
    (hk : keys[r]? = some k) (k' : K) :
    IndexesSeq lt (keys.set r k')
      (update lt k' [] (· ++ [r]) (InvertedIndex.leave lt k r (bucket lt m k) m)) := by
  have hpush := (hm.leave h hk).push h (r := r) (Function.update_self _ _ _) k' (f := (· ++ [r]))
    fun rows => List.perm_append_singleton _ _
  have hkeys : (fun i => (keys.set r k')[i]?) =
      Function.update (Function.update (fun i => keys[i]?) r none) r (some k') := by
    rw [Function.update_idem]
    funext i
    by_cases hi : i = r
    · subst hi
      have hlt := (List.getElem?_eq_some_iff.mp hk).1
      rw [Function.update_self, List.getElem?_set_self hlt]
    · rw [Function.update_of_ne hi, List.getElem?_set_ne (Ne.symm hi)]
  rw [IndexesSeq, hkeys]
  exact hpush

def keyOrder (lt : K → K → Bool) (kf : ℕ → K) (i j : ℕ) : Bool :=
  lt (kf i) (kf j) || (!lt (kf j) (kf i) && decide (i ≤ j))

theorem keyOrder_trans (h : StrictWeak lt) (kf : ℕ → K) (a b c : ℕ)
    (hab : keyOrder lt kf a b = true) (hbc : keyOrder lt kf b c = true) :
    keyOrder lt kf a c = true := by
  simp only [keyOrder, Bool.or_eq_true, Bool.and_eq_true, Bool.not_eq_true', decide_eq_true_eq] at *
  rcases hab with hab | ⟨hab, hle⟩
  · rcases h.cotrans (kf c) hab with hac | hcb
    · exact .inl hac
    · rcases hbc with hbc | ⟨hbc, -⟩
      · rw [h.asymm hbc] at hcb
        cases hcb
      · rw [hbc] at hcb
        cases hcb
  · rcases hbc with hbc | ⟨hbc, hle'⟩
    · rcases h.cotrans (kf a) hbc with hba | hac
      · rw [hab] at hba
        cases hba
      · exact .inl hac
    · refine .inr ⟨?_, hle.trans hle'⟩
      cases hca : lt (kf c) (kf a) with
      | false => rfl
      | true =>
        rcases h.cotrans (kf b) hca with hcb | hba
        · rw [hbc] at hcb
          cases hcb
        · rw [hab] at hba
          cases hba

theorem keyOrder_total (lt : K → K → Bool) (kf : ℕ → K) (a b : ℕ) :
    (keyOrder lt kf a b || keyOrder lt kf b a) = true := by
  unfold keyOrder
  cases lt (kf a) (kf b) <;> cases lt (kf b) (kf a) <;> simp
  omega

theorem keyOrder_antisymm (h : StrictWeak lt) (kf : ℕ → K) {a b : ℕ}
    (hab : keyOrder lt kf a b = true) (hba : keyOrder lt kf b a = true) : a = b := by
  simp only [keyOrder, Bool.or_eq_true, Bool.and_eq_true, Bool.not_eq_true', decide_eq_true_eq] at *
  have hasymm := h.asymm (a := kf a) (b := kf b)
  rcases hab with hab | ⟨hab, hle⟩
  · rcases hba with hba | ⟨hba, -⟩
    · rw [hasymm hab] at hba
      cases hba
    · rw [hab] at hba
      cases hba
  · rcases hba with hba | ⟨-, hle'⟩
    · rw [hab] at hba
      cases hba
    · omega

theorem IndexesSeq.flatMap_eq_mergeSort (h : StrictWeak lt) (hm : IndexesSeq lt keys m)
    (ha : Ascending lt m) {kf : ℕ → K} (hkf : ∀ i k, keys[i]? = some k → kf i = k) :
    m.flatMap Prod.snd = (List.range keys.length).mergeSort (keyOrder lt kf) := by
  have hentry : ∀ e ∈ m, ∀ i ∈ e.2, equiv lt (kf i) e.1 = true := by
    intro e he i hi
    obtain ⟨k, hk, hke⟩ := (hm.mem_entry h he i).mp hi
    rw [hkf i k hk]
    exact hke
  have hflat : (m.flatMap Prod.snd).Pairwise fun i j => keyOrder lt kf i j = true := by
    rw [List.pairwise_flatMap]
    refine ⟨?_, hm.sorted.imp_of_mem ?_⟩
    · intro e he
      have hasc : e.2.Pairwise (· < ·) := by
        rw [← bucket_of_mem h hm.sorted he]
        exact ha e.1
      refine hasc.imp_of_mem fun {i j} hi hj hij => ?_
      have hj' := hentry e he j hj
      rw [equiv_comm] at hj'
      have htie := equiv_trans h (hentry e he i hi) hj'
      simp only [equiv, Bool.and_eq_true, Bool.not_eq_true'] at htie
      simp [keyOrder, htie.1, htie.2, hij.le]
    · intro a b hma hmb hab i hi j hj
      have hlt : lt (kf i) (kf j) = true := by
        rw [h.lt_left_congr (hentry a hma i hi), h.lt_right_congr (hentry b hmb j hj)]
        exact hab
      simp [keyOrder, hlt]
  have hsort := List.pairwise_mergeSort (keyOrder_trans h kf) (keyOrder_total lt kf)
    (List.range keys.length)
  exact ((hm.perm_range h).trans (List.mergeSort_perm _ _).symm).eq_of_pairwise
    (fun i j _ _ hij hji => keyOrder_antisymm h kf hij hji) hflat hsort

theorem IndexesSeq.flatMap_filter (h : StrictWeak lt) (hm : IndexesSeq lt keys m) {kf : ℕ → K}
    (hkf : ∀ i k, keys[i]? = some k → kf i = k) {p : K → Bool}
    (hp : ∀ a b, equiv lt a b = true → p a = p b) :
    (m.filter fun e => p e.1).flatMap Prod.snd = (m.flatMap Prod.snd).filter fun i => p (kf i) := by
  have hsplit : ∀ l : List (K × List ℕ), (l.filter fun e => p e.1).flatMap Prod.snd =
      l.flatMap fun e => if p e.1 then e.2 else [] := by
    intro l
    induction l with
    | nil => rfl
    | cons e l ih => cases hpe : p e.1 <;> simp [hpe, ih]
  rw [List.filter_flatMap, hsplit]
  refine List.flatMap_congr fun e he => ?_
  have hall : ∀ i ∈ e.2, p (kf i) = p e.1 := by
    intro i hi
    obtain ⟨k, hk, hke⟩ := (hm.mem_entry h he i).mp hi
    rw [hkf i k hk]
    exact hp k e.1 hke
  cases hpe : p e.1 with
  | true => simpa [hpe] using (List.filter_eq_self.mpr fun i hi => (hall i hi).trans hpe).symm
  | false =>
    simpa [hpe] using (List.filter_eq_nil_iff.mpr fun i hi => by simp [hall i hi, hpe]).symm

end InvertedIndex
