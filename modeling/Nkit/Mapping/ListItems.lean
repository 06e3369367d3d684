import Nkit.Mapping.TwoRuns
import Nkit.Mapping.FailedAdds
import Nkit.Xml.Formatting

/-! The items of a list that is mapped to the children of the root.  All of them come from the same
targets; what these keep from one item to the next shows in two cases only. -/

namespace Nkit
namespace Xml2Var

section
variable {c : Compiled} {m m' : Marks} {st₀ : ℕ → TargetState} {g g' : TargetGroup Bytes}

/-- The list or dict number `n` of a target. -/
def TargetState.version (n : ℕ) (s : TargetState) : Option Content := (s.past ++ [s.current])[n]?

theorem TargetGroup.tree_made (g : TargetGroup Bytes) (fuel j n : ℕ) :
    g.tree (fuel + 1) (.made j n) =
      match (g.states j).version n with
      | some (.list items) => .list (items.map (g.tree fuel))
      | some (.dict entries) => .dict (entries.map fun e => (e.1, g.tree fuel e.2))
      | none => .undef := rfl

theorem TargetState.version_current (s : TargetState) :
    s.version s.past.length = some s.current := by
  rw [version, List.getElem?_append_right le_rfl, Nat.sub_self]
  rfl

theorem TargetState.version_past {s : TargetState} {n : ℕ} (h : n < s.past.length) :
    s.version n = s.past[n]? :=
  List.getElem?_append_left h

theorem TargetState.version_cases {s : TargetState} {n : ℕ} {content : Content}
    (h : s.version n = some content) :
    content ∈ s.past ∨ content = s.current := by
  have hin := List.mem_of_getElem? h
  exact (List.mem_append.mp hin).imp id List.mem_singleton.mp

theorem Settled.le {j n : ℕ} (h : Settled c m st₀ j n) : n ≤ (st₀ j).past.length :=
  h.elim Nat.le_of_lt fun h => h.1.le

theorem Tidy.refersTo (h : Tidy c m st₀) (hopen : ∀ i ∈ c.order, i ∉ m.busy) {i n : ℕ}
    (hi : i ∈ c.order) (hscalar : (c.group.items i).target.isScalar = false) {content : Content}
    (hv : (st₀ i).version n = some content) :
    RefersTo c (Settled c m st₀) i content := by
  rcases TargetState.version_cases hv with hin | rfl
  · exact (h.refs i hi hscalar).past content hin
  · exact (h.refs i hi hscalar).settled (.inl (hopen i hi))

theorem getElem?_kept {A : Type} {l l' : List A} (h : l <+: l') {n : ℕ} (hn : n < l.length) :
    l'[n]? = l[n]? := by
  obtain ⟨rest, rfl⟩ := h
  exact List.getElem?_append_left hn

theorem map_eq_of_forall₂ {A B C : Type} {R : A → B → Prop} {f : A → C} {f' : B → C} {l : List A}
    {l' : List B} (h : List.Forall₂ R l l') (hf : ∀ a ∈ l, ∀ b, R a b → f' b = f a) :
    l'.map f' = l.map f := by
  induction h with
  | nil => rfl
  | cons hab _ ih =>
    rw [List.map_cons, List.map_cons, hf _ List.mem_cons_self _ hab,
      ih fun a ha => hf a (List.mem_cons_of_mem _ ha)]

theorem RefersTo.ne_root (hw : Hanging c) {R : ℕ → ℕ → Prop} {i j n : ℕ} {content : Content}
    (h : RefersTo c R i content) (hin : .made j n ∈ content.vars) : j ≠ 0 := by
  rintro rfl
  have hparent := (h 0 n hin).2.1
  rw [hw.noParent] at hparent
  cases hparent

theorem SameContents.version_kept {j n : ℕ} {t s : TargetState} (h : SameContents c st₀ m' j t s)
    (hs : Settled c m st₀ j n) (hopen : j ∉ m'.busy)
    (hlists : c.dropped j = true → (∃ its, (c.group.items j).target = .list its) → j ∈ m.exited →
      j ∉ m'.exited) :
    s.version n = (st₀ j).version n := by
  rcases hs with hlt | ⟨rfl, hexited, hd⟩
  · rw [TargetState.version_past hlt, TargetState.version_past (hlt.trans_le h.kept.length_le)]
    exact getElem?_kept h.kept hlt
  · rcases h.dropped hd with ⟨hp, hc, -⟩ | hpre | ⟨hlist, hbusy | hin⟩
    · rw [TargetState.version, TargetState.version, hp, hc]
    · have hlt : (st₀ j).past.length < ((st₀ j).past ++ [(st₀ j).current]).length := by simp
      rw [TargetState.version_past (hlt.trans_le hpre.length_le)]
      rw [getElem?_kept hpre hlt]
      rfl
    · exact absurd hbusy hopen
    · exact absurd hin (hlists hd hlist hexited)

theorem Same.tree_kept (hw : Hanging c) (h : Same c st₀ m' g.states g'.states) (ht : Tidy c m st₀)
    (hopen : ∀ i ∈ c.order, i ∉ m.busy) (hopen' : ∀ i ∈ c.order, i ∉ m'.busy)
    (hlists : ∀ j ∈ c.order, c.dropped j = true → (∃ its, (c.group.items j).target = .list its) →
      j ∈ m.exited → j ∉ m'.exited) {g₀ : TargetGroup Bytes} (hg₀ : g₀.states = st₀) (fuel : ℕ)
    {i : ℕ} {content : Content} (hrefs : RefersTo c (Settled c m st₀) i content) {v : Var}
    (hv : v ∈ content.vars) : g'.tree fuel v = g₀.tree fuel v := by
  induction fuel generalizing i content v with
  | zero => cases v <;> rfl
  | succ fuel ih =>
    cases v with
    | value => rfl
    | made j n =>
      obtain ⟨hj, -, hscalar, hs⟩ := hrefs j n hv
      have hversion := (h.contents j hj (hrefs.ne_root hw hv) hscalar).version_kept hs (hopen' j hj)
        (hlists j hj)
      rw [TargetGroup.tree_made, TargetGroup.tree_made, hversion, hg₀]
      cases hcontent : (st₀ j).version n with
      | none => rfl
      | some content' =>
        have hrefs' := ht.refersTo hopen hj hscalar hcontent
        cases content' with
        | list items => exact congrArg _ (List.map_congr_left fun v hv => ih hrefs' hv)
        | dict entries =>
          refine congrArg _ (List.map_congr_left fun e he => ?_)
          rw [ih hrefs' (List.mem_map_of_mem he)]

theorem Same.tree_same (hw : Hanging c) (h : Same c st₀ m g.states g'.states)
    (ht : Tidy c m g.states) (hopen : ∀ i ∈ c.order, i ∉ m.busy) (fuel : ℕ) {i : ℕ}
    {content : Content} (hrefs : RefersTo c (Settled c m g.states) i content) {v w : Var}
    (hv : v ∈ content.vars) (hvw : SameVar c st₀ v w) :
    g'.tree fuel w = g.tree fuel v := by
  induction fuel generalizing i content v w with
  | zero => cases hvw <;> rfl
  | succ fuel ih =>
    cases hvw with
    | value => rfl
    | @made j n hused =>
      obtain ⟨hj, -, hscalar, hs⟩ := hrefs j n hv
      have hsame := h.contents j hj (hrefs.ne_root hw hv) hscalar
      have hversion : ∃ a b, (g.states j).version n = some a ∧
          (g'.states j).version ((st₀ j).past.length + n) = some b ∧ SameContent c st₀ a b := by
        rcases hs.le.lt_or_eq with hlt | heq
        · obtain ⟨a, ha⟩ : ∃ a, (g.states j).past[n]? = some a := ⟨_, List.getElem?_eq_getElem hlt⟩
          obtain ⟨b, hb, hab⟩ := hsame.past n a ha hused
          refine ⟨a, b, (TargetState.version_past hlt).trans ha, ?_, hab⟩
          rw [TargetState.version_past (hsame.length ▸ Nat.add_lt_add_left hlt _), hb]
        · refine ⟨(g.states j).current, (g'.states j).current, heq ▸ TargetState.version_current _,
            ?_, hsame.current fun hin => ?_⟩
          · rw [heq, ← hsame.length]
            exact TargetState.version_current _
          · exact List.ne_nil_of_length_pos (heq ▸ hused hin)
      obtain ⟨a, b, ha, hb, hab⟩ := hversion
      rw [TargetGroup.tree_made, TargetGroup.tree_made, ha, hb]
      have hrefs' := ht.refersTo hopen hj hscalar ha
      have hone : ∀ v ∈ a.vars, ∀ w, SameVar c st₀ v w → g'.tree fuel w = g.tree fuel v :=
        fun v hv w hvw => ih hrefs' hv hvw
      cases hab with
      | list hitems => exact congrArg _ (map_eq_of_forall₂ hitems hone)
      | dict hentries =>
        refine congrArg _ (map_eq_of_forall₂ hentries fun e he e' hee' => ?_)
        rw [← hee'.1, hone e.2 (List.mem_map_of_mem he) e'.2 hee'.2]

end

def TargetGroup.value (g : TargetGroup Bytes) : DynTree := g.tree g.count (g.var 0)

theorem TargetGroup.value_list {g : TargetGroup Bytes} {its : List ℕ} {items : List Var} {n : ℕ}
    (hlist : (g.items 0).target = .list its) (hcurrent : (g.states 0).current = .list items)
    (hcount : g.count = n + 1) :
    g.value = .list (items.map (g.tree n)) := by
  rw [value, hcount, var, hlist]
  show g.tree (n + 1) (.made 0 (g.states 0).past.length) = _
  rw [tree_made, TargetState.version_current, hcurrent]

def Compiled.ran (lib : ScalarLib) (o : StructOptions) (events : List XmlEvent) (c : Compiled) :
    TargetGroup Bytes :=
  (c.moves [] events).foldl (fun g v => g.move lib o v) c.group

theorem Compiled.ran_sameItems (lib : ScalarLib) (o : StructOptions) (events : List XmlEvent)
    (c : Compiled) :
    TargetGroup.SameItems c.group (c.ran lib o events) := TargetGroup.moves_sameItems _ _

section
open Marks Ledger
variable {c : Compiled} {m : Marks} {st₀ : ℕ → TargetState} {g g' : TargetGroup Bytes}
  {ms : List Move} {lib : ScalarLib} {o : StructOptions}

theorem Tidy.run (hw : Hanging c) (hallowed : Allowed note (Legal c) m ms) (h : Tidy c m g.states)
    (hitems : g.items = c.group.items) :
    Tidy c (after note m ms) (ms.foldl (fun g v => g.move lib o v) g).states :=
  (hallowed.invariant (fun v (g : TargetGroup Bytes) => g.move lib o v)
    (fun m g => Tidy c m g.states ∧ g.items = c.group.items)
    (fun _ v _ hv h => ⟨h.1.move hw hv h.2, (TargetGroup.move_sameItems v).1.trans h.2⟩)
    ⟨h, hitems⟩).1

theorem Same.run (lib : ScalarLib) (o : StructOptions) (hw : Hanging c) (hl : Leftover c st₀)
    (hroot : ∃ its, (c.group.items 0).target = .list its)
    (hallowed : Allowed note (fun m v => Legal c m v ∧ Fair c st₀ m v) m ms)
    (h : Same c st₀ m g.states g'.states) (ht : Tidy c m g.states) (hg : g.items = c.group.items)
    (hg' : g'.items = c.group.items) :
    Same c st₀ (after note m ms) (ms.foldl (fun g v => g.move lib o v) g).states
      (ms.foldl (fun g v => g.move lib o v) g').states :=
  (hallowed.lockstep (fun v (g : TargetGroup Bytes) => g.move lib o v)
    (fun v (g : TargetGroup Bytes) => g.move lib o v)
    (fun m g g' => Same c st₀ m g.states g'.states ∧ Tidy c m g.states ∧ g.items = c.group.items ∧
      g'.items = c.group.items)
    (fun _ v _ _ hv h => ⟨h.1.move hw hl hroot hv.1 hv.2 h.2.1 h.2.2.1 h.2.2.2,
      h.2.1.move hw hv.1 h.2.2.1, (TargetGroup.move_sameItems v).1.trans h.2.2.1,
      (TargetGroup.move_sameItems v).1.trans h.2.2.2⟩) ⟨h, ht, hg, hg'⟩).1

theorem Leftover.fresh (hw : Hanging c) : Leftover c c.group.states where
  key := fun i _ _ => by rw [hw.fresh i]
  value := fun i _ _ => by rw [hw.fresh i]; rfl
  clean := fun i _ _ _ => hw.clean_fresh i

theorem Hanging.root_list (hw : Hanging c) (hroot : ∃ its, (c.group.items 0).target = .list its)
    (hallowed : Allowed note (Legal c) Marks.start ms) :
    ∃ items, ((ms.foldl (fun g v => g.move lib o v) c.group).states 0).current = .list items := by
  have hclean := hw.clean_fresh 0
  have hcurrent : ∃ earlier, (c.group.states 0).current = .list earlier := by
    obtain ⟨its, hlist⟩ := hroot
    rw [hlist] at hclean
    exact ⟨[], hclean⟩
  have hfair : Allowed note (fun m v => Legal c m v ∧ Fair c c.group.states m v) Marks.start
      ms := by
    refine hallowed.imp fun m v hv => ⟨hv, ?_⟩
    cases v with
    | enter => trivial
    | text => trivial
    | collect el i k => exact fun _ _ _ _ => .inr (by rw [hw.fresh k])
    | leave el i => exact fun _ _ hused => hused rfl
  obtain ⟨-, items, -, -, hitems, -⟩ := (Same.run lib o hw (.fresh hw) hroot hfair
    (.start hw (.fresh hw) hcurrent hroot) (Tidy.start hw) rfl rfl).root
  exact ⟨items, hitems⟩

end

/-- An element of `k` begins before one of `item` ends. -/
def TargetItem.entersFirst (k item : TargetItem Bytes) : List Tag → Bool
  | [] => true
  | .opens names _ :: ts => k.firesAt names || entersFirst k item ts
  | .closes names :: ts => !item.firesAt names && entersFirst k item ts

namespace Compiled

/-- The child `k` of an object is no scalar with a default; or `xs` leave it its key name as the
key; or `ys` give it a key before they end an element of its parent. -/
def keyRenewed (xs ys : List Tag) (i k : ℕ) (c : Compiled) : Bool :=
  match (c.group.items k).target with
  | .scalar t =>
    !t.defaultValue.isSome || (c.group.items k).keyFor ((c.group.items k).lastAttrs xs) ==
      (c.group.items k).keyName ||
      (c.group.items k).entersFirst (c.group.items i) ys
  | _ => true

/-- Nothing of what `xs` leave in the targets comes into what `ys` make. -/
def unmixed (xs ys : List Tag) (c : Compiled) : Bool :=
  c.order.all fun i =>
    match (c.group.items i).target with
    | .object targetItems => targetItems.all fun k => c.keyRenewed xs ys i k
    | .list _ => !(c.dropped i && (c.group.items i).closed xs && (c.group.items i).closed ys)
    | .scalar _ => true

end Compiled

theorem TargetItem.lastAttrs_isSome {item : TargetItem Bytes} {ts : List Tag} {names : List Bytes}
    {attrs : List (Bytes × Bytes)} (hin : .opens names attrs ∈ ts)
    (hfires : item.firesAt names = true) : (item.lastAttrs ts).isSome = true := by
  induction ts using List.reverseRecOn with
  | nil => cases hin
  | append_singleton ts t ih =>
    rcases List.mem_append.mp hin with hold | hin
    · cases t with
      | opens names' attrs' =>
        rw [(item.lastAttrs_append ts names' attrs').1]
        split_ifs
        · rfl
        · exact ih hold
      | closes names' =>
        rw [(item.lastAttrs_append ts names' []).2]
        exact ih hold
    · obtain rfl := List.mem_singleton.mp hin
      rw [(item.lastAttrs_append ts names attrs).1, if_pos hfires]
      rfl

theorem TargetItem.entersFirst_spec {k item : TargetItem Bytes} {done rest : List Tag}
    {names : List Bytes} (h : k.entersFirst item (done ++ .closes names :: rest) = true)
    (hfires : item.firesAt names = true) :
    (k.lastAttrs done).isSome = true := by
  have hopens : ∃ names attrs, .opens names attrs ∈ done ∧ k.firesAt names = true := by
    induction done with
    | nil => simp [entersFirst, hfires] at h
    | cons t done ih =>
      cases t with
      | opens names' attrs =>
        rw [List.cons_append, entersFirst, Bool.or_eq_true] at h
        rcases h with hk | h
        · exact ⟨names', attrs, List.mem_cons_self, hk⟩
        · obtain ⟨q, attrs', hin, hk⟩ := ih h
          exact ⟨q, attrs', List.mem_cons_of_mem _ hin, hk⟩
      | closes names' =>
        rw [List.cons_append, entersFirst, Bool.and_eq_true] at h
        obtain ⟨q, attrs', hin, hk⟩ := ih h.2
        exact ⟨q, attrs', List.mem_cons_of_mem _ hin, hk⟩
  obtain ⟨q, attrs, hin, hk⟩ := hopens
  exact lastAttrs_isSome hin hk

section
open Marks Ledger
variable {c : Compiled} {m₀ m : Marks} {st₀ : ℕ → TargetState} {xs ys : List Tag}

/-- Where nothing is mixed up, the moves of `ys` are fair to what `xs` left. -/
theorem fair_of_unmixed (hw : Hanging c) (h : c.unmixed xs ys = true) (ht : Tidy c m₀ st₀)
    (hm₀ : m₀.At c [] xs) {v : Move} (hv : Legal c m v) (hdue : Due c ys m v) : Fair c st₀ m v := by
  rw [Compiled.unmixed, List.all_eq_true] at h
  cases v with
  | enter => trivial
  | text => trivial
  | collect el i k =>
    rintro ⟨its, hobj⟩ t htk hdefault
    obtain ⟨hi, -, hk, -⟩ := hv
    obtain ⟨done, names, rest, rfl, hfires, hattrs⟩ := hdue
    have hkin := (hw.forest.children i hi k hk).1
    have hall := h i hi
    simp only [hobj, List.all_eq_true] at hall
    rw [hobj] at hk
    have hkept := hall k hk
    simp only [Compiled.keyRenewed, htk, hdefault, Bool.not_true, Bool.false_or, Bool.or_eq_true,
      beq_iff_eq] at hkept
    rcases hkept with hkept | hkept
    · refine .inr ?_
      rw [(ht.fields k hkin).key, hm₀.attrs k hkin, hkept]
    · refine .inl ?_
      rw [hattrs k hkin]
      exact TargetItem.entersFirst_spec hkept hfires
  | leave el i =>
    rintro hi0 ⟨its, hlist⟩
    obtain ⟨hi, -⟩ := hv
    obtain ⟨done, names, rest, rfl, hfires, -⟩ := hdue
    have hscalar : (c.group.items i).target.isScalar = false := by rw [hlist]; rfl
    cases hd : c.dropped i with
    | false => exact (Leftover.of_tidy hw ht hm₀).not_used hw hi hi0 hd hscalar
    | true =>
      have hall := h i hi
      have hclosed : (c.group.items i).closed (done ++ .closes names :: rest) = true :=
        List.any_eq_true.mpr ⟨.closes names, by simp, hfires⟩
      simp only [hlist, hd, hclosed, Bool.true_and, Bool.and_true, Bool.not_eq_true'] at hall
      have hnot : i ∉ m₀.exited := by
        rw [hm₀.exited i hi, hall]
        exact Bool.false_ne_true
      have hclean := hw.clean_fresh i
      rw [hlist] at hclean
      have hempty :=
        (ht.fields i hi).unused hnot (fun hin => hw.not_within_nil hi ((hm₀.busy i).mp hin).2) its
          hlist
      exact fun hused => hused (hempty.trans hclean.symm)

/-- The root's list after `xs` and `ys` has the items of `xs` and then those of `ys`. -/
theorem items_append {lib : ScalarLib} {o : StructOptions} {events events' : List XmlEvent}
    (hw : Hanging c) (hroot : ∃ its, (c.group.items 0).target = .list its)
    (hevents : ∀ e ∈ events, Named e) (hevents' : ∀ e ∈ events', Named e)
    (hback : events.foldl stepNames [] = []) (hback' : events'.foldl stepNames [] = [])
    (hunmixed : c.unmixed (tags [] events) (tags [] events') = true) :
    ∃ us vs, (c.ran lib o events).value = .list us ∧ (c.ran lib o events').value = .list vs ∧
      (c.ran lib o (events ++ events')).value = .list (us ++ vs) := by
  obtain ⟨hallowed, hm⟩ := At.run hw (at_start hw) hevents
  obtain ⟨hallowed', hm'⟩ := At.run hw (at_start hw) hevents'
  rw [hback, List.nil_append] at hm
  rw [hback', List.nil_append] at hm'
  rw [List.nil_append] at hallowed'
  have hlegal := hallowed.imp fun _ _ h => h.1
  have hlegal' := hallowed'.imp fun _ _ h => h.1
  have ht : Tidy c _ (c.ran lib o events).states := Tidy.run hw hlegal (Tidy.start hw) rfl
  have ht' : Tidy c _ (c.ran lib o events').states := Tidy.run hw hlegal' (Tidy.start hw) rfl
  have hl := Leftover.of_tidy hw ht hm
  have hfair : Allowed note (fun m v => Legal c m v ∧ Fair c (c.ran lib o events).states m v) start
      (c.moves [] events') :=
    hallowed'.imp fun _ _ h => ⟨h.1, fair_of_unmixed hw hunmixed ht hm h.1 h.2⟩
  have hsame : Same c (c.ran lib o events).states (after note start (c.moves [] events'))
    (c.ran lib o events').states
      (c.ran lib o (events ++ events')).states := by
    have hfinal : c.ran lib o (events ++ events') =
        (c.moves [] events').foldl (fun g v => g.move lib o v) (c.ran lib o events) := by
      rw [Compiled.ran, Compiled.moves_append, hback, List.foldl_append]
      rfl
    rw [hfinal]
    exact Same.run lib o hw hl hroot hfair (.start hw hl (hw.root_list hroot hlegal) hroot)
      (Tidy.start hw) rfl
      (TargetGroup.moves_sameItems _ _).1
  have hopen : ∀ {m ts}, At c [] ts m → ∀ i ∈ c.order, i ∉ m.busy := fun hm i hi hin =>
    hw.not_within_nil hi ((hm.busy i).mp hin).2
  obtain ⟨its, hlist⟩ := hroot
  have hroots : (c.group.items 0).target.isScalar = false := by rw [hlist]; rfl
  obtain ⟨earlier, items, items', h₀, hitems, hitems', hboth⟩ := hsame.root
  obtain ⟨n, hn⟩ : ∃ n, c.group.count = n + 1 :=
    ⟨c.group.count - 1, by have := hw.below 0 hw.root; omega⟩
  have hvalue : ∀ {events items}, ((c.ran lib o events).states 0).current = .list items →
      (c.ran lib o events).value = .list (items.map ((c.ran lib o events).tree n)) := by
    intro events items hcurrent
    obtain ⟨hitems, hcount⟩ := c.ran_sameItems lib o events
    exact TargetGroup.value_list (hitems ▸ hlist) hcurrent (hcount.trans hn)
  refine ⟨_, _, hvalue h₀, hvalue hitems, (hvalue hitems').trans ?_⟩
  rw [List.map_append]
  congr 2
  · -- the items of `xs`
    refine List.map_congr_left fun v hv => hsame.tree_kept hw ht (hopen hm) (hopen hm') ?_ rfl n
      (ht.refersTo (hopen hm) hw.root hroots (TargetState.version_current _)) ?_
    · intro j hj hd hl hin hin'
      obtain ⟨its, hl⟩ := hl
      rw [Compiled.unmixed, List.all_eq_true] at hunmixed
      have hnot := hunmixed j hj
      simp only [hl, hd, (hm.exited j hj).mp hin, (hm'.exited j hj).mp hin', Bool.and_self,
        Bool.not_true] at hnot
      cases hnot
    · rw [h₀]
      exact hv
  · -- the items of `ys`
    refine map_eq_of_forall₂ hboth fun v hv w hvw => hsame.tree_same hw ht' (hopen hm') n
      (ht'.refersTo (hopen hm') hw.root hroots (TargetState.version_current _)) ?_ hvw
    rw [hitems]
    exact hv

end

end Xml2Var

namespace XmlContent
open Xml2Var

theorem events_append (xs ys : XmlContent) : (xs.append ys).events = xs.events ++ ys.events := by
  induction xs with
  | nil => rfl
  | text s rest ih => rw [append, events, events, ih, List.cons_append]
  | element name attrs body rest _ ih =>
    rw [append, events, events, ih, List.cons_append, List.append_assoc, List.cons_append]

theorem foldl_stepNames (xs : XmlContent) (names : List Bytes) :
    xs.events.foldl stepNames names = names := by
  induction xs generalizing names with
  | nil => rfl
  | text s rest ih => exact ih names
  | element name attrs body rest ih ih' =>
    rw [events, List.foldl_cons, List.foldl_append, ih, List.foldl_cons]
    show rest.events.foldl stepNames (names ++ [Tools.cStr name]).dropLast = names
    rw [List.dropLast_concat, ih']

theorem Tagged.starless {table : NameTable} {xs : XmlContent} (h : xs.Tagged table) :
    ∀ e ∈ xs.events, Marks.Named e := by
  induction xs with
  | nil => exact fun e he => absurd he List.not_mem_nil
  | text s rest ih => exact List.forall_mem_cons.mpr ⟨trivial, ih h⟩
  | element name attrs body rest ih ih' =>
    obtain ⟨hname, -, hbody, hrest⟩ := h
    have hstar : Tools.cStr name ≠ star := by
      intro heq
      have hin : (42 : UInt8) ∈ Tools.cStr name := heq ▸ (by decide)
      exact absurd ((table.bytes name hname).2 _ (List.takeWhile_subset _ hin)) (by decide)
    have hafter : ∀ e ∈ .endElement name :: rest.events, Marks.Named e :=
      List.forall_mem_cons.mpr ⟨trivial, ih' hrest⟩
    exact List.forall_mem_cons.mpr ⟨hstar, List.forall_mem_append.mpr ⟨ih hbody, hafter⟩⟩

end XmlContent

namespace Xml2Var
variable {lib : ScalarLib} {o : StructOptions}

theorem Path.named_elements (pathSpec : Bytes) :
    (Path.named pathSpec).elements = (splitPath pathSpec).1.map Tools.cStr := by
  have hfold : ∀ (names : List Bytes) (p : Path Bytes),
      (names.foldl (fun path name => path.push star (Tools.cStr name)) p).elements =
        p.elements ++ names.map Tools.cStr := by
    intro names
    induction names with
    | nil => exact fun p => (List.append_nil _).symm
    | cons name names ih =>
      intro p
      rw [List.foldl_cons, ih, Path.push, List.map_cons, List.append_assoc]
      rfl
  exact hfold _ _

theorem compile_hanging {pathSpec subMapping : DynTree} {root : ℕ} {c : Compiled}
    (hpath : (splitPath (pathSpec.getString lib.toCLib)).1 ≠ [])
    (h : Compiled.compile lib o (.list [pathSpec, subMapping]) = .ok (root, c)) :
    root = 0 ∧ Hanging c ∧ ∃ its, (c.group.items 0).target = .list its := by
  obtain ⟨rfl, hwired⟩ := compile_wired h
  rw [Compiled.compile, Compiled.compileList] at h
  cases happend : Path.empty.append star (Path.named (pathSpec.getString lib.toCLib)) with
  | none =>
    rw [happend] at h
    cases h
  | some path =>
    rw [happend] at h
    cases hres : Compiled.compileTarget lib o (some Compiled.empty.group.count) path subMapping
      Compiled.empty.allocate with
    | error e =>
      simp only [hres] at h
      cases h
    | ok res =>
      obtain ⟨child, c₁⟩ := res
      simp only [hres] at h
      obtain ⟨-, rfl⟩ := Prod.mk.inj (Except.ok.inj h)
      have hitem :
        (c₁.create Compiled.empty.group.count
          (TargetGroup.item path (.list [child]) none)).group.items 0 =
          TargetGroup.item path (.list [child]) none := by
        simp [Compiled.create, TargetGroup.put, Compiled.empty, TargetGroup.empty]
      refine ⟨rfl, ⟨hwired, ?_⟩, [child], by rw [hitem]; rfl⟩
      rw [hitem]
      show path.elements ≠ []
      rw [(Path.append_spec Path.maskOk_empty happend).2, Path.named_elements]
      exact fun hnil => hpath (List.map_eq_nil_iff.mp hnil)

theorem value_eq {mapping : DynTree} {c : Compiled} (hw : Hanging c)
    (h : Compiled.compile lib o mapping = .ok (0, c)) (root : Bytes) (attrs : List (Bytes × Bytes))
    (xs : XmlContent) :
    StructXml2VarBuilder.value lib o mapping (XmlDocument.events ⟨root, attrs, xs⟩) =
      (c.ran lib o xs.events).value := by
  have hstart : ((NamedRun.start c).step lib o (.startElement root attrs)).Stands c c.group [] :=
    ⟨rfl, rfl, rfl, rfl⟩
  have hbody := hstart.feed lib o xs.events rfl
  rw [xs.foldl_stepNames] at hbody
  have hend := hbody.step lib o (c.ran_sameItems lib o xs.events).1 (.endElement root)
  have hnone : c.masks [] ++ c.nodes [] = [] := by
    refine List.eq_nil_iff_forall_not_mem.mpr fun i hi => ?_
    obtain ⟨hin, hfires⟩ := Wired.mem_firing.mp hi
    rw [hw.not_firesAt_nil hin] at hfires
    cases hfires
  rw [Compiled.eventMoves, hnone] at hend
  rw [StructXml2VarBuilder.value, h]
  show NamedRun.var 0
    (NamedRun.feed lib o (XmlDocument.events ⟨root, attrs, xs⟩) (NamedRun.start c)) = _
  have hfeed : NamedRun.feed lib o (XmlDocument.events ⟨root, attrs, xs⟩) (NamedRun.start c) =
      (((NamedRun.start c).step lib o (.startElement root attrs)).feed lib o xs.events).step lib o
        (.endElement root) := by
    rw [XmlDocument.events, NamedRun.feed, List.foldl_cons, List.foldl_append]
    rfl
  rw [hfeed, NamedRun.var, hend.group]
  rfl

namespace StructXml2VarBuilder

/-- Documents whose root has the children `xs`, `ys`, or both one after the other. -/
def Concatenates (lib : ScalarLib) (name : Bytes) (root : Bytes) (attrs : List (Bytes × Bytes))
    (xs ys : XmlContent) (b : StructXml2VarBuilder) : Prop :=
  ∃ us vs, (b.feed lib (XmlDocument.events ⟨root, attrs, xs⟩)).var name = .list us ∧
    (b.feed lib (XmlDocument.events ⟨root, attrs, ys⟩)).var name = .list vs ∧
    (b.feed lib (XmlDocument.events ⟨root, attrs, xs.append ys⟩)).var name = .list (us ++ vs)

/-- Nothing of what the children `xs` leave in the targets of a mapping comes into what `ys` make.
-/
def unmixed (lib : ScalarLib) (o : StructOptions) (mapping : DynTree) (xs ys : XmlContent) : Bool :=
  match Compiled.compile lib o mapping with
  | .ok (_, c) => c.unmixed (tags [] xs.events) (tags [] ys.events)
  | .error _ => true

/-- The items of a list depend on their own elements only, unless something stays in the targets. -/
theorem items_independent {name : Bytes} {pathSpec subMapping : DynTree} {b : StructXml2VarBuilder}
    (hadd : (create o).addMapping lib name (.list [pathSpec, subMapping]) = (.ok (), b))
    (hpath : (splitPath (pathSpec.getString lib.toCLib)).1 ≠ []) {table : NameTable}
    {xs ys : XmlContent} (hxs : xs.Tagged table) (hys : ys.Tagged table)
    (h : unmixed lib o (.list [pathSpec, subMapping]) xs ys = true) (root : Bytes)
    (attrs : List (Bytes × Bytes)) : b.Concatenates lib name root attrs xs ys := by
  obtain ⟨b', created, ⟨i, c⟩, hadd', hoptions, hcompile, hload⟩ | ⟨e, b', hadd', -⟩ :=
    (loaded_create o).addMapping (.list [pathSpec, subMapping])
      (show name ∉ [] from List.not_mem_nil)
  · obtain rfl : b' = b := (Prod.mk.inj (hadd'.symm.trans hadd)).2
    have hcompile : Compiled.compile lib o (.list [pathSpec, subMapping]) = .ok (i, c) := hcompile
    obtain ⟨rfl, hw, hroot⟩ := compile_hanging hpath hcompile
    have hvar : ∀ zs : XmlContent,
        (b'.feed lib (XmlDocument.events ⟨root, attrs, zs⟩)).var name =
          (c.ran lib o zs.events).value := by
      intro zs
      rw [hload.var List.mem_cons_self, hoptions]
      exact value_eq hw hcompile root attrs zs
    rw [unmixed, hcompile] at h
    rw [Concatenates, hvar, hvar, hvar, XmlContent.events_append]
    exact items_append hw hroot hxs.starless hys.starless (xs.foldl_stepNames [])
      (ys.foldl_stepNames []) h
  · rw [hadd'] at hadd
    cases hadd

/-- Each `b` of an item goes under a key that it names itself. -/
def keyedMapping : DynTree := .dict [(ascii "b -> @key", .string (ascii "string|none"))]

def builderWith (subMapping : DynTree) : StructXml2VarBuilder :=
  ((create sampleOptions).addMapping sampleLib (ascii "m")
    (.list [.string (ascii "item"), subMapping])).2

def itemWith (body : XmlContent) : XmlContent := .element (ascii "item") [] body .nil

def keyedItem : XmlContent :=
  itemWith (.element (ascii "b") [(ascii "key", ascii "first")] .nil .nil)

theorem tagged_keyedItem : keyedItem.Tagged asciiNames :=
  ⟨by decide, by decide, ⟨by decide, by decide, trivial, trivial⟩, trivial⟩

theorem items_independent_keyed :
    (builderWith keyedMapping).Concatenates sampleLib (ascii "m") (ascii "root") [] keyedItem
      keyedItem := by
  have hadd : (create sampleOptions).addMapping sampleLib (ascii "m")
    (.list [.string (ascii "item"), keyedMapping]) =
      (.ok (), builderWith keyedMapping) := rfl
  have hunmixed : unmixed sampleLib sampleOptions (.list [.string (ascii "item"), keyedMapping])
    keyedItem keyedItem =
      true := by decide +kernel
  exact items_independent hadd (by decide) tagged_keyedItem tagged_keyedItem hunmixed _ _

def eachItem {A : Type} (f : DynTree → A) : DynTree → List A
  | .list items => items.map f
  | _ => []

theorem Concatenates.each {A : Type} (f : DynTree → A) {b : StructXml2VarBuilder}
    {name root : Bytes} {attrs : List (Bytes × Bytes)} {xs ys : XmlContent}
    (h : b.Concatenates lib name root attrs xs ys) :
    eachItem f ((b.feed lib (XmlDocument.events ⟨root, attrs, xs.append ys⟩)).var name) =
      eachItem f ((b.feed lib (XmlDocument.events ⟨root, attrs, xs⟩)).var name) ++
        eachItem f ((b.feed lib (XmlDocument.events ⟨root, attrs, ys⟩)).var name) := by
  obtain ⟨us, vs, hus, hvs, hboth⟩ := h
  rw [hus, hvs, hboth]
  exact List.map_append

def dictKeys : DynTree → List Bytes
  | .dict entries => entries.map Prod.fst
  | _ => []

/-- An item without `b` gets the default under the key of the item before. -/
theorem key_stays :
    (create sampleOptions).addMapping sampleLib (ascii "m")
      (.list [.string (ascii "item"), keyedMapping]) =
        (.ok (), builderWith keyedMapping) ∧
      keyedItem.Tagged asciiNames ∧ (itemWith .nil).Tagged asciiNames ∧
      ¬(builderWith keyedMapping).Concatenates sampleLib (ascii "m") (ascii "root") [] keyedItem
        (itemWith .nil) := by
  refine ⟨rfl, tagged_keyedItem, ⟨by decide, by decide, trivial, trivial⟩, fun h => ?_⟩
  -- `first` and `first` against `first` and `key`
  exact absurd (h.each dictKeys) (by decide +kernel)

def listLengths : DynTree → List ℕ
  | .dict entries => entries.map fun e => (eachItem id e.2).length
  | _ => []

example :
    let shared := DynTree.dict [(ascii "b", .string (ascii "string")),
      (ascii "c -> b", .list [.string (ascii "d"), .string (ascii "string")])]
    let item :=
      itemWith
        (.element (ascii "c") [] (.element (ascii "d") [] (.text (ascii "x") .nil) .nil) .nil)
    ¬(builderWith shared).Concatenates sampleLib (ascii "m") (ascii "root") [] item item :=
  fun h => absurd (h.each listLengths) (by decide +kernel)

end StructXml2VarBuilder

end Xml2Var
end Nkit
