import Nkit.Mapping.Evaluation
import Nkit.Mapping.Independence

/-! A builder gives the value that a mapping says: over the events of a document the tally counts,
for every target item, the elements at its path. -/

namespace Nkit
namespace Xml2Var
open OrderedMap Ledger

def Leads (path names : List Bytes) : Prop := List.Forall₂ (fun e n => e = star ∨ e = n) path names

/-- The elements at a path of the document that are in `e`, which is at `names`. -/
def found : List Bytes → List Bytes → XmlElement → List XmlElement
  | path, [], e => e.select path
  | [], _ :: _, _ => []
  | p :: path, n :: names, e => if p = star ∨ p = n then found path names e else []

theorem found_of_leads {path names : List Bytes} (h : Leads path names) (rel : List Bytes)
    (e : XmlElement) :
    found (path ++ rel) names e = e.select rel := by
  induction h with
  | nil => exact found.eq_1 rel e
  | cons hn _ ih =>
    rw [List.cons_append, found, if_pos hn]
    exact ih

theorem flatMap_filter {A B : Type} (q : A → Bool) (f : A → List B) (l : List A) :
    (l.filter q).flatMap f = l.flatMap fun a => if q a = true then f a else [] := by
  induction l with
  | nil => rfl
  | cons a l ih =>
    rw [List.filter_cons, List.flatMap_cons, ← ih]
    split_ifs
    · exact List.flatMap_cons
    · rfl

theorem found_below {path names : List Bytes} (h : ¬Leads path names) (e : XmlElement) :
    found path names e = e.content.children.flatMap fun child =>
      found path (names ++ [Tools.cStr child.1]) child.2 := by
  induction names generalizing path with
  | nil =>
    cases path with
    | nil => exact absurd List.Forall₂.nil h
    | cons p path =>
      rw [found, XmlElement.select, flatMap_filter]
      refine List.flatMap_congr fun child _ => ?_
      simp only [nameMatches, Bool.or_eq_true, beq_iff_eq, List.nil_append, found]
  | cons n names ih =>
    cases path with
    | nil => exact (List.flatMap_eq_nil_iff.mpr fun _ _ => rfl).symm
    | cons p path =>
      simp only [found, List.cons_append]
      split_ifs with hn
      · exact ih fun hrest => h (.cons hn hrest)
      · exact (List.flatMap_eq_nil_iff.mpr fun _ _ => rfl).symm

section
variable {path names : List Bytes} (h : ¬Leads path names) (attrs : List (Bytes × Bytes))
include h

theorem found_nil : found path names ⟨attrs, .nil⟩ = [] := found_below h _

theorem found_text (text : Bytes) (rest : XmlContent) :
    found path names ⟨attrs, .text text rest⟩ = found path names ⟨attrs, rest⟩ := by
  rw [found_below h, found_below h]
  rfl

theorem found_element (name : Bytes) (attrs' : List (Bytes × Bytes)) (body rest : XmlContent) :
    found path names ⟨attrs, .element name attrs' body rest⟩ =
      found path (names ++ [Tools.cStr name]) ⟨attrs', body⟩ ++ found path names ⟨attrs, rest⟩ := by
  rw [found_below h, found_below h]
  rfl

end

def joined : Option Bytes → Option Bytes → Option Bytes
  | text, none => text
  | text, some more => some (text.getD [] ++ more)

theorem joined_text (t : Option Bytes) (text : Bytes) (rest : XmlContent) :
    joined (joined t (some text)) rest.ownText = joined t (XmlContent.text text rest).ownText := by
  rw [XmlContent.ownText]
  cases rest.ownText with
  | none => simp [joined]
  | some more => simp [joined]

section
variable {lib : ScalarLib} {o : StructOptions} {c : Compiled} {T : Tally} {items : List ℕ}

namespace Tally

def calls (lib : ScalarLib) (o : StructOptions) (c : Compiled) (vs : List Call) (T : Tally) :
    Tally :=
  vs.foldl (fun T v => T.call lib o c.group.items v) T

theorem calls_append (vs ws : List Call) :
    T.calls lib o c (vs ++ ws) = (T.calls lib o c vs).calls lib o c ws :=
  List.foldl_append

variable (lib o c) in
theorem calls_enter (attrs : List (Bytes × Bytes)) (T : Tally) (items : List ℕ) :
    (T.calls lib o c (items.map (.enter attrs))).done = T.done ∧
      ∀ i, (T.calls lib o c (items.map (.enter attrs))).opened i =
        (if i ∈ items then attrEntries o attrs else T.opened i) ∧
        (T.calls lib o c (items.map (.enter attrs))).text i =
          if i ∈ items then TargetState.enteredText attrs (c.group.items i) else T.text i := by
  induction items generalizing T with
  | nil => exact ⟨rfl, fun i => ⟨rfl, rfl⟩⟩
  | cons j items ih =>
    obtain ⟨hdone, hrest⟩ := ih (T.call lib o c.group.items (.enter attrs j))
    refine ⟨hdone, fun i => ?_⟩
    obtain ⟨hopened, htext⟩ := hrest i
    rw [List.map_cons, calls, List.foldl_cons]
    refine ⟨hopened.trans ?_, htext.trans ?_⟩
    all_goals
      by_cases hij : i = j
      · subst hij
        simp [call]
      · simp [call, hij]

variable (lib o c) in
theorem calls_text (text : Bytes) (T : Tally) {items : List ℕ} (hnodup : items.Nodup) :
    (T.calls lib o c (items.map (.text text))).done = T.done ∧
      (T.calls lib o c (items.map (.text text))).opened = T.opened ∧
      ∀ i, (T.calls lib o c (items.map (.text text))).text i =
        if i ∈ items ∧ (c.group.items i).path.attributeName.isEmpty = true
          then joined (T.text i) (some text) else T.text i := by
  induction items generalizing T with
  | nil => exact ⟨rfl, rfl, fun i => (if_neg fun hin => List.not_mem_nil hin.1).symm⟩
  | cons j items ih =>
    obtain ⟨hj, hnodup⟩ := List.nodup_cons.mp hnodup
    obtain ⟨hdone, hopened, htext⟩ := ih (T.call lib o c.group.items (.text text j)) hnodup
    rw [List.map_cons, calls, List.foldl_cons]
    refine ⟨hdone.trans ?_, hopened.trans ?_, fun i => (htext i).trans ?_⟩
    · rw [call]
      split_ifs <;> rfl
    · rw [call]
      split_ifs <;> rfl
    · by_cases hij : i = j
      · subst hij
        by_cases hattr : (c.group.items i).path.attributeName.isEmpty = true <;>
          simp [call, hattr, hj, joined]
      · by_cases hattr : (c.group.items j).path.attributeName.isEmpty = true <;>
          simp [call, hattr, hij]

end Tally

/-- The target items are to be left at element `e`, each after its children among them. -/
structure Ready (lib : ScalarLib) (o : StructOptions) (c : Compiled) (e : XmlElement)
    (items : List ℕ) (T : Tally) : Prop where
  text : ∀ i ∈ items, T.text i = textFor (c.group.items i).path.attributeName e
  opened : ∀ i ∈ items, T.opened i = attrEntries o e.attrs
  waiting : ∀ i ∈ items, ∀ k ∈ (c.group.items i).target.children, k ∈ items → T.done k = []
  done : ∀ i ∈ items, ∀ k ∈ (c.group.items i).target.children, k ∉ items → ∀ rel,
    (c.group.items k).path.elements = (c.group.items i).path.elements ++ rel →
      ∀ f, Gives lib o c.group.items k f → T.done k = (e.select rel).map f

structure LeftAt (lib : ScalarLib) (o : StructOptions) (c : Compiled) (e : XmlElement)
    (items : List ℕ) (T T' : Tally) : Prop where
  text : T'.text = T.text
  opened : T'.opened = T.opened
  cleared : ∀ k ∈ c.order, ∀ p ∈ items, (c.group.items k).parentTarget = some p → T'.done k = []
  kept : ∀ k ∈ c.order, k ∉ items → (∀ p ∈ items, (c.group.items k).parentTarget ≠ some p) →
    T'.done k = T.done k
  added : ∀ k ∈ items, (∀ p ∈ items, (c.group.items k).parentTarget ≠ some p) →
    ∀ f, Gives lib o c.group.items k f → T'.done k = T.done k ++ [f e]

theorem Ready.made (hw : Wired c) {e : XmlElement} {i : ℕ} (h : Ready lib o c e (i :: items) T)
    (hi : i ∈ c.order) (hfirst : ∀ k ∈ items, (c.group.items k).parentTarget ≠ some i)
    {f : XmlElement → DynTree} (hf : Gives lib o c.group.items i f) :
    T.made lib o c.group.items i = [f e] := by
  refine hf.made (h.text i List.mem_cons_self) (h.opened i List.mem_cons_self)
    fun k hk rel hrel f' hf' => ?_
  refine h.done i List.mem_cons_self k hk (fun hin => ?_) rel hrel f' hf'
  have hparent := (hw.forest.children i hi k hk).2
  rcases List.mem_cons.mp hin with rfl | hin
  · exact hw.forest.irrefl k hi hparent
  · exact hfirst k hin hparent

theorem Ready.exit (hw : Wired c) {e : XmlElement} {i n : ℕ} (h : Ready lib o c e (i :: items) T)
    (hin : ∀ j ∈ i :: items, j ∈ c.order)
    (hlen : ∀ j ∈ i :: items, (c.group.items j).path.elements.length = n) (hnot : i ∉ items)
    (hfirst : ∀ k ∈ items, (c.group.items k).parentTarget ≠ some i) (el : Bytes) :
    Ready lib o c e items (T.call lib o c.group.items (.exit el i)) := by
  obtain ⟨hi, hin⟩ := List.forall_mem_cons.mp hin
  obtain ⟨hlenHead, hlenRest⟩ := List.forall_mem_cons.mp hlen
  have hself : i ∉ (c.group.items i).target.children := fun hchild => hw.child_ne hi hchild rfl
  -- a child of another target item is no child of this one
  have hnotchild : ∀ j ∈ items, ∀ k ∈ (c.group.items j).target.children,
      k ∉ (c.group.items i).target.children := by
    intro j hj k hk hk'
    have hparent := (hw.forest.children j (hin j hj) k hk).2
    rw [(hw.forest.children i hi k hk').2] at hparent
    exact hnot (Option.some.inj hparent ▸ hj)
  have hdone : ∀ j ∈ items, ∀ k ∈ (c.group.items j).target.children, k ≠ i →
      (T.call lib o c.group.items (.exit el i)).done k = T.done k :=
    fun j hj k hk hki => Tally.done_other (hnotchild j hj k hk) hki
  constructor
  · exact fun j hj => h.text j (List.mem_cons_of_mem i hj)
  · exact fun j hj => h.opened j (List.mem_cons_of_mem i hj)
  · intro j hj k hk hkin
    rw [hdone j hj k hk fun heq => hnot (heq ▸ hkin)]
    exact h.waiting j (List.mem_cons_of_mem i hj) k hk (List.mem_cons_of_mem i hkin)
  · intro j hj k hk hknot rel hrel f hf
    by_cases hki : k = i
    · -- this one was waited for: it is left at the same element
      subst hki
      have hnil : rel = [] := by
        have hlength := congrArg List.length hrel
        rw [List.length_append, hlenHead, hlenRest j hj] at hlength
        exact List.eq_nil_of_length_eq_zero (by omega)
      rw [Tally.done_self hself, h.waiting j (List.mem_cons_of_mem k hj) k hk List.mem_cons_self,
        h.made hw hi hfirst hf, hnil]
      rfl
    · rw [hdone j hj k hk hki]
      exact h.done j (List.mem_cons_of_mem i hj) k hk
        (fun hkin => (List.mem_cons.mp hkin).elim hki hknot) rel hrel f hf

theorem Ready.left (hw : Wired c) (hplain : c.Plain) {e : XmlElement} {n : ℕ}
    (h : Ready lib o c e items T) (hin : ∀ i ∈ items, i ∈ c.order)
    (hlen : ∀ i ∈ items, (c.group.items i).path.elements.length = n) (hnodup : items.Nodup)
    (hpair : items.Pairwise fun a b => (c.group.items b).parentTarget ≠ some a) (el : Bytes) :
    LeftAt lib o c e items T (T.calls lib o c (items.map (.exit el))) := by
  induction items generalizing T with
  | nil =>
    exact ⟨rfl, rfl, fun _ _ _ hp => absurd hp List.not_mem_nil, fun _ _ _ _ => rfl,
      fun _ hk => absurd hk List.not_mem_nil⟩
  | cons i items ih =>
    obtain ⟨hnot, hnodup⟩ := List.nodup_cons.mp hnodup
    obtain ⟨hfirst, hpair⟩ := List.pairwise_cons.mp hpair
    have hready := h.exit hw hin hlen hnot hfirst el
    obtain ⟨hi, hin⟩ := List.forall_mem_cons.mp hin
    obtain ⟨htext, hopened, hcleared, hkept, hadded⟩ :=
      ih hready hin (List.forall_mem_cons.mp hlen).2 hnodup hpair
    have hself : i ∉ (c.group.items i).target.children := fun hchild => hw.child_ne hi hchild rfl
    have hnotchild : ∀ k, (c.group.items k).parentTarget ≠ some i → k ∈ c.order →
        k ∉ (c.group.items i).target.children :=
      fun k hk _ hchild => hk (hw.forest.children i hi k hchild).2
    refine ⟨htext, hopened, fun k hk p hp hparent => ?_, fun k hk hknot hparents => ?_,
      fun k hk hparents f hf => ?_⟩
    · by_cases hrest : ∃ p ∈ items, (c.group.items k).parentTarget = some p
      · obtain ⟨p', hp', hparent'⟩ := hrest
        exact hcleared k hk p' hp' hparent'
      · have hrest' : ∀ p ∈ items, (c.group.items k).parentTarget ≠ some p := fun p hp heq =>
          hrest ⟨p, hp, heq⟩
        obtain rfl : p = i := (List.mem_cons.mp hp).resolve_right fun hp => hrest' p hp hparent
        refine (hkept k hk (fun hkin => hfirst k hkin hparent) hrest').trans ?_
        exact Tally.done_child (hplain.child k hk p hparent)
    · obtain ⟨hpi, hparents⟩ := List.forall_mem_cons.mp hparents
      rw [List.mem_cons, not_or] at hknot
      exact (hkept k hk hknot.2 hparents).trans (Tally.done_other (hnotchild k hpi hk) hknot.1)
    · obtain ⟨hpi, hrest⟩ := List.forall_mem_cons.mp hparents
      rcases List.mem_cons.mp hk with rfl | hkin
      · refine (hkept k hi hnot hrest).trans ?_
        rw [Tally.done_self hself, h.made hw hi hfirst hf]
      · rw [show (T.calls lib o c ((i :: items).map (.exit el))).done k = _
          from hadded k hkin hrest f hf, Tally.done_other (hnotchild k hpi (hin k hkin)) fun heq =>
            hnot (heq ▸ hkin)]

/-- What the content `xs` of the element at `names` adds to the tally. -/
structure Counted (lib : ScalarLib) (o : StructOptions) (c : Compiled) (names : List Bytes)
    (xs : XmlContent) (T T' : Tally) :
    Prop where
  text : ∀ i ∈ c.order, (c.group.items i).Within names → T'.text i =
    if (c.group.items i).firesAt names = true ∧
        (c.group.items i).path.attributeName.isEmpty = true then
      joined (T.text i) xs.ownText else T.text i
  opened : ∀ i ∈ c.order, (c.group.items i).Within names → T'.opened i = T.opened i
  entered : ∀ i ∈ c.order, (c.group.items i).Within names → T'.done i = T.done i
  below : ∀ k ∈ c.order, (∀ p, (c.group.items k).parentTarget = some p →
    (c.group.items p).Within names) →
    ¬(c.group.items k).Within names → ∀ f, Gives lib o c.group.items k f → ∀ attrs,
      T'.done k = T.done k ++ (found (c.group.items k).path.elements names ⟨attrs, xs⟩).map f
  clean : ∀ k ∈ c.order, ∀ p, (c.group.items k).parentTarget = some p →
    ¬(c.group.items p).Within names → T'.done k = []

def Tally.CleanAt (c : Compiled) (names : List Bytes) (T : Tally) : Prop :=
  ∀ k ∈ c.order, ∀ p, (c.group.items k).parentTarget = some p → ¬(c.group.items p).Within names →
    T.done k = []

variable {names : List Bytes}

theorem not_leads (hw : Wired c) (hnames : star ∉ names) {k : ℕ} (hk : k ∈ c.order)
    (hnot : ¬(c.group.items k).Within names) :
    ¬Leads (c.group.items k).path.elements names := fun hleads =>
  hnot ⟨names, List.prefix_refl _, (TargetItem.firesAt_iff (hw.forest.isMask k hk) hnames).mpr
    hleads⟩

namespace Counted

theorem nil (hw : Wired c) (hnames : star ∉ names) (h : T.CleanAt c names) :
    Counted lib o c names .nil T T where
  text := fun i _ _ => by
    rw [XmlContent.ownText]
    exact (ite_self _).symm
  opened := fun _ _ _ => rfl
  entered := fun _ _ _ => rfl
  below := fun k hk _ hnot f _ attrs => by
    rw [found_nil (not_leads hw hnames hk hnot), List.map_nil, List.append_nil]
  clean := h

theorem text_cons (hw : Wired c) (hnames : star ∉ names) {text : Bytes} {rest : XmlContent}
    {T' : Tally}
    (h : Counted lib o c names rest
      (T.calls lib o c ((c.nodes names ++ c.masks names).map (.text text))) T') :
    Counted lib o c names (.text text rest) T T' := by
  have hperm : (c.nodes names ++ c.masks names).Perm (c.masks names ++ c.nodes names) :=
    List.perm_append_comm
  obtain ⟨hdone, hopened, htext⟩ :=
    Tally.calls_text lib o c text T (hperm.nodup_iff.mpr (hw.firing_nodup names))
  have hfires : ∀ i ∈ c.order, (i ∈ c.nodes names ++ c.masks names ↔
      (c.group.items i).firesAt names = true) := by
    intro i hi
    rw [hperm.mem_iff, Wired.mem_firing]
    exact and_iff_right hi
  refine ⟨fun i hi hwithin => ?_, fun i hi hwithin => ?_, fun i hi hwithin => ?_,
    fun k hk hparents hnot f hf attrs => ?_, h.clean⟩
  · have hiff := and_congr_left (c := (c.group.items i).path.attributeName.isEmpty = true) fun _ =>
      hfires i hi
    rw [h.text i hi hwithin, htext i]
    by_cases hadds : (c.group.items i).firesAt names = true ∧
      (c.group.items i).path.attributeName.isEmpty = true
    · rw [if_pos hadds, if_pos hadds, if_pos (hiff.mpr hadds)]
      exact joined_text _ _ _
    · rw [if_neg hadds, if_neg hadds, if_neg (mt hiff.mp hadds)]
  · rw [h.opened i hi hwithin, hopened]
  · rw [h.entered i hi hwithin, hdone]
  · rw [h.below k hk hparents hnot f hf attrs, hdone, found_text (not_leads hw hnames hk hnot)]

theorem element (hw : Wired c) (hnames : star ∉ names) {name : Bytes} {attrs : List (Bytes × Bytes)}
    {body rest : XmlContent} (hname : star ∉ names ++ [Tools.cStr name]) {T₁ T₂ T₃ : Tally}
    (h₁ : Counted lib o c (names ++ [Tools.cStr name]) body
      (T.calls lib o c
      ((c.masks (names ++ [Tools.cStr name]) ++ c.nodes (names ++ [Tools.cStr name])).map
      (.enter attrs))) T₁)
    (h₂ : LeftAt lib o c ⟨attrs, body⟩
      (c.masks (names ++ [Tools.cStr name]) ++ c.nodes (names ++ [Tools.cStr name])) T₁ T₂)
    (h₃ : Counted lib o c names rest T₂ T₃) :
    Counted lib o c names (.element name attrs body rest) T T₃ := by
  obtain ⟨hdone, hentered⟩ := Tally.calls_enter lib o c attrs T
    (c.masks (names ++ [Tools.cStr name]) ++ c.nodes (names ++ [Tools.cStr name]))
  set names' := names ++ [Tools.cStr name] with hnames'
  set firing := c.masks names' ++ c.nodes names' with hfiring
  have hnot : ∀ i, (c.group.items i).Within names → i ∉ firing := by
    intro i hwithin hin
    obtain ⟨hi, hfires⟩ := Wired.mem_firing.mp hin
    exact hw.not_within hi hname hfires hwithin
  have hin : ∀ i, (c.group.items i).Within names → (c.group.items i).Within names' :=
    fun i hwithin => Wired.within_append.mpr (.inl hwithin)
  have hnotfires : ∀ i ∈ c.order, (c.group.items i).Within names →
      ¬(c.group.items i).firesAt names' = true :=
    fun i hi hwithin hfires => hw.not_within hi hname hfires hwithin
  have hparents : ∀ k ∈ c.order, (∀ p, (c.group.items k).parentTarget = some p →
    (c.group.items p).Within names) →
      ∀ p ∈ firing, (c.group.items k).parentTarget ≠ some p :=
    fun k _ hopen p hp hparent => hnot p (hopen p hparent) hp
  have hopen : ∀ i ∈ c.order, (c.group.items i).Within names →
      ∀ p, (c.group.items i).parentTarget = some p → (c.group.items p).Within names :=
    fun i hi hwithin p hp => hw.parent_within hi hp hnames hwithin
  refine ⟨fun i hi hwithin => ?_, fun i hi hwithin => ?_, fun i hi hwithin => ?_,
    fun k hk hopen' hknot f hf attrs' => ?_, h₃.clean⟩
  · have htext := h₁.text i hi (hin i hwithin)
    rw [if_neg fun h => hnotfires i hi hwithin h.1, (hentered i).2,
      if_neg (hnot i hwithin)] at htext
    rw [h₃.text i hi hwithin, h₂.text, htext]
    rfl
  · rw [h₃.opened i hi hwithin, h₂.opened, h₁.opened i hi (hin i hwithin), (hentered i).1,
      if_neg (hnot i hwithin)]
  · rw [h₃.entered i hi hwithin, h₂.kept i hi (hnot i hwithin) (hparents i hi (hopen i hi hwithin)),
      h₁.entered i hi (hin i hwithin), hdone]
  · rw [h₃.below k hk hopen' hknot f hf attrs', found_element (not_leads hw hnames hk hknot),
      List.map_append, ← List.append_assoc]
    congr 1
    by_cases hkin : k ∈ firing
    · -- the element is one of the target item's
      have hfires := (Wired.mem_firing.mp hkin).2
      have hone := found_of_leads ((TargetItem.firesAt_iff (hw.forest.isMask k hk) hname).mp hfires)
        [] ⟨attrs, body⟩
      rw [List.append_nil] at hone
      rw [h₂.added k hkin (hparents k hk hopen') f hf,
        h₁.entered k hk ⟨names', List.prefix_refl _, hfires⟩, hdone, hone]
      rfl
    · have hknot' : ¬(c.group.items k).Within names' := by
        rw [Wired.within_append, not_or]
        exact ⟨hknot, fun hfires => hkin (Wired.mem_firing.mpr ⟨hk, hfires⟩)⟩
      rw [h₂.kept k hk hkin (hparents k hk hopen'),
        h₁.below k hk (fun p hp => hin p (hopen' p hp)) hknot' f hf attrs, hdone]

theorem ready (hw : Wired c) (hnames : star ∉ names) {e : XmlElement} {T₁ : Tally}
    (h : Counted lib o c names e.content T T₁)
    (htext : ∀ i ∈ c.masks names ++ c.nodes names,
      T.text i = TargetState.enteredText e.attrs (c.group.items i))
    (hopened : ∀ i ∈ c.masks names ++ c.nodes names, T.opened i = attrEntries o e.attrs)
    (hdone : ∀ i ∈ c.masks names ++ c.nodes names, ∀ k ∈ (c.group.items i).target.children,
      T.done k = []) :
    Ready lib o c e (c.masks names ++ c.nodes names) T₁ := by
  have hfires : ∀ i ∈ c.masks names ++ c.nodes names,
      i ∈ c.order ∧ (c.group.items i).firesAt names = true ∧ (c.group.items i).Within names := by
    intro i hi
    obtain ⟨hin, hfires⟩ := Wired.mem_firing.mp hi
    exact ⟨hin, hfires, names, List.prefix_refl _, hfires⟩
  refine ⟨fun i hi => ?_, fun i hi => ?_, fun i hi k hk hkin => ?_,
    fun i hi k hk hkin rel hrel f hf => ?_⟩
  all_goals obtain ⟨hin, hfiresi, hwithin⟩ := hfires i hi
  · rw [h.text i hin hwithin, htext i hi, TargetState.enteredText, textFor]
    by_cases hattr : (c.group.items i).path.attributeName.isEmpty = true
    · rw [if_pos ⟨hfiresi, hattr⟩, if_pos hattr, if_pos hattr]
      cases e.content.ownText <;> rfl
    · rw [if_neg fun hboth => hattr hboth.2, if_neg hattr, if_neg hattr]
  · rw [h.opened i hin hwithin, hopened i hi]
  · rw [h.entered k (hfires k hkin).1 (hfires k hkin).2.2, hdone i hi k hk]
  · obtain ⟨hkorder, hparent⟩ := hw.forest.children i hin k hk
    have hparents : ∀ p, (c.group.items k).parentTarget = some p →
        (c.group.items p).Within names := by
      intro p hp
      obtain rfl : i = p := Option.some.inj (hparent.symm.trans hp)
      exact hwithin
    have hknot : ¬(c.group.items k).Within names := fun hkwithin =>
      hkin (Wired.mem_firing.mpr
        ⟨hkorder, hw.firesAt_of_within hkorder hparent hnames hkwithin hfiresi⟩)
    rw [h.below k hkorder hparents hknot f hf e.attrs, hdone i hi k hk, List.nil_append, hrel,
      found_of_leads ((TargetItem.firesAt_iff (hw.forest.isMask i hin) hnames).mp hfiresi)]

end Counted

theorem Ready.left_firing (hw : Wired c) (hplain : c.Plain) (hnames : star ∉ names) {e : XmlElement}
    (h : Ready lib o c e (c.masks names ++ c.nodes names) T) (el : Bytes) :
    LeftAt lib o c e (c.masks names ++ c.nodes names) T
      (T.calls lib o c (c.eventCalls names (.endElement el))) :=
  h.left hw hplain (fun _ hi => (Wired.mem_firing.mp hi).1)
    (fun _ hi => hw.length_eq (Wired.mem_firing.mp hi).1 (Wired.mem_firing.mp hi).2 hnames)
      (hw.firing_nodup names)
    (hw.firing_pairwise hnames) el

theorem LeftAt.clean (hw : Wired c) {e : XmlElement} {n : Bytes} (hnames : star ∉ names ++ [n])
    {T T' : Tally} (h : LeftAt lib o c e (c.masks (names ++ [n]) ++ c.nodes (names ++ [n])) T T')
    (hclean : T.CleanAt c (names ++ [n])) :
    T'.CleanAt c names := by
  intro k hk p hp hnot
  have hpin := (hw.fit hk hp).1
  by_cases hfires : (c.group.items p).firesAt (names ++ [n]) = true
  · exact h.cleared k hk p (Wired.mem_firing.mpr ⟨hpin, hfires⟩) hp
  · have hnot' : ¬(c.group.items p).Within (names ++ [n]) := by
      rw [Wired.within_append, not_or]
      exact ⟨hnot, hfires⟩
    rw [h.kept k hk (fun hkin => hnot' ?_) fun p' hp' hparent => ?_]
    · exact hclean k hk p hp hnot'
    · obtain ⟨-, hkfires⟩ := Wired.mem_firing.mp hkin
      exact hw.parent_within hk hp hnames ⟨_, List.prefix_refl _, hkfires⟩
    · obtain rfl : p = p' := Option.some.inj (hp.symm.trans hparent)
      exact hfires (Wired.mem_firing.mp hp').2

variable (lib o) in
theorem counted (hw : Wired c) (hplain : c.Plain) (xs : XmlContent)
    (hxs : ∀ e ∈ xs.events, Marks.Named e) (hnames : star ∉ names) (hclean : T.CleanAt c names) :
    Counted lib o c names xs T (T.calls lib o c (c.calls names xs.events)) := by
  induction xs generalizing T names with
  | nil => exact .nil hw hnames hclean
  | text s rest ih =>
    rw [XmlContent.events, Compiled.calls, Tally.calls_append]
    refine .text_cons hw hnames
      (ih (fun e he => hxs e (List.mem_cons_of_mem _ he)) hnames fun k hk p hp hnot => ?_)
    have hnodup : (c.nodes names ++ c.masks names).Nodup :=
      List.perm_append_comm.nodup_iff.mpr (hw.firing_nodup names)
    rw [(Tally.calls_text lib o c s T hnodup).1]
    exact hclean k hk p hp hnot
  | element name attrs body rest ih ih' =>
    rw [XmlContent.events] at hxs
    obtain ⟨hnamed, hxs⟩ := List.forall_mem_cons.mp hxs
    obtain ⟨hbody, hxs⟩ := List.forall_mem_append.mp hxs
    obtain ⟨-, hrest⟩ := List.forall_mem_cons.mp hxs
    have hname : star ∉ names ++ [Tools.cStr name] := by
      simpa [hnames] using Ne.symm hnamed
    rw [Compiled.calls_element, Tally.calls_append, Tally.calls_append, Tally.calls_append]
    obtain ⟨hdone, hentered⟩ := Tally.calls_enter lib o c attrs T
      (c.masks (names ++ [Tools.cStr name]) ++ c.nodes (names ++ [Tools.cStr name]))
    have hclean₁ : (T.calls lib o c (c.eventCalls names (.startElement name attrs))).CleanAt c
        (names ++ [Tools.cStr name]) := by
      intro k hk p hp hnot
      rw [Compiled.eventCalls, hdone]
      exact hclean k hk p hp fun hwithin => hnot (Wired.within_append.mpr (.inl hwithin))
    have h₁ := ih hbody hname hclean₁
    have hready := h₁.ready hw hname (e := ⟨attrs, body⟩)
      (fun i hi => ((hentered i).2).trans (if_pos hi))
        (fun i hi => ((hentered i).1).trans (if_pos hi)) fun i hi k hk => by
        obtain ⟨hin, hfires⟩ := Wired.mem_firing.mp hi
        obtain ⟨hkin, hparent⟩ := hw.forest.children i hin k hk
        rw [Compiled.eventCalls, hdone]
        exact hclean k hkin i hparent (hw.not_within hin hname hfires)
    have h₂ := hready.left_firing hw hplain hname name
    exact .element hw hnames hname h₁ h₂ (ih' hrest hnames (h₂.clean hw hname h₁.clean))

variable (lib o) in
theorem root_done (hw : Wired c) (hplain : c.Plain) {xs : XmlContent}
    (hxs : ∀ e ∈ xs.events, Marks.Named e) (root : Bytes) {f : XmlElement → DynTree}
    (hf : Gives lib o c.group.items 0 f) :
    (Tally.start.calls lib o c (c.calls [] xs.events ++ c.eventCalls [] (.endElement root))).done
      0 =
      ((⟨[], xs⟩ : XmlElement).select (c.group.items 0).path.elements).map f := by
  have hnames : star ∉ ([] : List Bytes) := List.not_mem_nil
  have hcounted := counted lib o (T := .start) hw hplain xs hxs hnames fun _ _ _ _ _ => rfl
  have hready := hcounted.ready hw hnames (e := ⟨[], xs⟩)
    (fun i _ => by
      rw [TargetState.enteredText]
      split_ifs <;> rfl)
    (fun i _ => by
      rw [attrEntries, List.isEmpty_nil, Bool.not_true, Bool.and_false]
      rfl)
    fun _ _ _ _ => rfl
  have hleft := hready.left_firing hw hplain hnames root
  have hparents : ∀ p ∈ c.masks [] ++ c.nodes [], (c.group.items 0).parentTarget ≠ some p := by
    rw [hw.noParent]
    exact fun _ _ => Option.some_ne_none _ |>.symm
  rw [Tally.calls_append]
  by_cases hfires : (c.group.items 0).firesAt [] = true
  · have hnil : (c.group.items 0).path.elements = [] :=
      List.eq_nil_of_length_eq_zero (hw.length_eq hw.root hfires hnames)
    rw [hleft.added 0 (Wired.mem_firing.mpr ⟨hw.root, hfires⟩) hparents f hf,
      hcounted.entered 0 hw.root ⟨[], List.prefix_refl _, hfires⟩, hnil]
    rfl
  · have hnot : ¬(c.group.items 0).Within [] := by
      rintro ⟨q, hq, hfires'⟩
      exact hfires (List.prefix_nil.mp hq ▸ hfires')
    rw [hleft.kept 0 hw.root (fun hin => hfires (Wired.mem_firing.mp hin).2) hparents,
      hcounted.below 0 hw.root (by simp [hw.noParent]) hnot f hf [], found]
    exact List.nil_append _

theorem Tallied.root_value {m : Phase} {g : TargetGroup Bytes} (hw : Wired c)
    (h : Tallied c m g.states T) (hitems : g.items = c.group.items)
    (hcount : g.count = c.group.count) (hidle : 0 ∉ m.busy) {s : TargetSpec} {items : List ℕ}
    (hs : s.CompiledTo c.group.items 0 items) {e : XmlElement}
    (hdone : T.done 0 = (e.select s.head).map (s.unit.eval lib o)) : g.value = s.eval lib o e := by
  have hroot := h.items 0 hw.root
  have hdepth : c.depth 0 < g.count := hcount ▸ hw.depth_le hw.root
  rw [TargetGroup.value, TargetGroup.var, hitems]
  cases s with
  | scalar t attr =>
    rw [TargetSpec.CompiledTo] at hs
    obtain ⟨-, htarget, -⟩ := hs
    have hlast : (T.done 0).getLast? = some ((TargetSpec.scalar t attr).eval lib o e) := by
      rw [hdone]
      rfl
    rw [htarget, (hroot.scalar t htarget).last hidle _ hlast]
    cases g.count <;> rfl
  | list path item =>
    rw [TargetSpec.CompiledTo] at hs
    obtain ⟨k, below, -, htarget, -⟩ := hs
    have hlist := hroot.list _ htarget
    rw [hdone] at hlist
    simp only [htarget, TargetState.read, Frozen.tree_current hlist hdepth, TargetSpec.eval]
    rfl
  | object entries =>
    rw [TargetSpec.CompiledTo] at hs
    obtain ⟨its, ks, below, -, htarget, -⟩ := hs
    have hlast : (T.done 0).getLast? = some ((TargetSpec.object entries).eval lib o e) := by
      rw [hdone]
      rfl
    simp only [htarget, TargetState.read]
    exact Frozen.tree_current (hroot.closed _ htarget hidle _ hlast) hdepth

theorem value_means {mapping : DynTree} (hcompile : Compiled.compile lib o mapping = .ok (0, c))
    (hw : Wired c) {s : TargetSpec} (hs : s.CompiledTo c.group.items 0 c.order)
    (hplain : s.plain = true) (hfixed : (c.group.items 0).keyNameIsAttribute = false)
    (hhead : (c.group.items 0).path.elements = s.head) {xs : XmlContent}
    (hxs : ∀ e ∈ xs.events, Marks.Named e) (root : Bytes) (attrs : List (Bytes × Bytes)) :
    StructXml2VarBuilder.value lib o mapping (XmlDocument.events ⟨root, attrs, xs⟩) =
      s.eval lib o ⟨[], xs⟩ := by
  have hcplain := (compiledTo_plain hw hs hplain hfixed).1
  have hnames : star ∉ ([] : List Bytes) := List.not_mem_nil
  -- all calls are legal
  obtain ⟨hallowed, hbusy⟩ :=
    Phase.content_allowed (m := ⟨Phase.openAt c [], ∅⟩) hw xs hxs hnames rfl
  obtain ⟨hallowed', hbusy'⟩ := Phase.exits hw root (Phase.leavable hw hnames hbusy)
  have htallied := Tallied.run lib o hw hcplain (allowed_append.mpr ⟨hallowed, hallowed'⟩)
    (Tallied.start hw) rfl
  have hdone := root_done lib o hw hcplain hxs root ⟨s, _, hs, hplain, rfl⟩
  rw [hhead] at hdone
  have hsame : TargetGroup.SameItems c.group (c.read lib o root xs) :=
    TargetGroup.foldl_sameItems (fun g v => TargetGroup.call_sameItems lib o v g) _ c.group
  rw [Compiled.value_read hcompile]
  refine htallied.root_value hw hsame.1 hsame.2 ?_ hs hdone
  rw [after_append, hbusy']
  rintro ⟨hopen, hnot⟩
  obtain ⟨hin, q, hq, hfires⟩ := hbusy ▸ hopen
  exact hnot (Wired.mem_firing.mpr ⟨hin, List.prefix_nil.mp hq ▸ hfires⟩)

end

namespace StructXml2VarBuilder
variable {lib : ScalarLib} {o : StructOptions} {b : StructXml2VarBuilder}
  {mappings : List (Bytes × DynTree)}

theorem value_eval {mapping : DynTree} (hcomp : ∃ res, Compiled.compile lib o mapping = .ok res)
    {s : TargetSpec} (hs : TargetSpec.parse lib o mapping = .ok s) (hplain : s.plain = true)
    {table : NameTable} {xs : XmlContent} (hxs : xs.Tagged table) (root : Bytes)
    (attrs : List (Bytes × Bytes)) :
    value lib o mapping (XmlDocument.events ⟨root, attrs, xs⟩) = s.eval lib o ⟨[], xs⟩ := by
  obtain ⟨⟨i, c⟩, hcompile⟩ := hcomp
  have hgrows := compile_grows hcompile
  obtain ⟨rfl, hw⟩ := hgrows.wired
  obtain ⟨s', hs', hbuilt⟩ := compile_built hcompile
  obtain rfl : s' = s := Except.ok.inj (hs'.symm.trans hs)
  obtain ⟨items, horder, hcompiled⟩ := hbuilt.block hplain
  obtain rfl : c.order = items := horder
  exact value_means hcompile hw hcompiled hplain hgrows.keyNameIsAttribute hbuilt.elements
    hxs.starless root attrs

/-- A mapping with plain keys gives the value that it says, whatever else the builder reads the
document for. -/
theorem var_means (hnames : (mappings.map Prod.fst).Nodup)
    (hadd : addMappings lib mappings (create o) = some b) {name : Bytes} {mapping : DynTree}
    (hin : (name, mapping) ∈ mappings) {s : TargetSpec}
    (hs : TargetSpec.parse lib o mapping = .ok s) (hplain : s.plain = true) {table : NameTable}
    {xs : XmlContent} (hxs : xs.Tagged table) (root : Bytes) (attrs : List (Bytes × Bytes)) :
    (b.feed lib (XmlDocument.events ⟨root, attrs, xs⟩)).var name = s.eval lib o ⟨[], xs⟩ := by
  have hcomp : ∀ e ∈ mappings, ∃ res, Compiled.compile lib o e.2 = .ok res :=
    (loaded_create o).compiles mappings (by simpa using hnames) hadd
  obtain ⟨b', hb', hvalues⟩ := addMappings_values hnames hcomp
  obtain rfl : b' = b := Option.some.inj (hb'.symm.trans hadd)
  rw [(hvalues _).1 name mapping hin]
  exact value_eval (hcomp _ hin) hs hplain hxs root attrs

theorem var_means_sample :
    ∃ b s, addMappings sampleLib sampleMappings (create sampleOptions) = some b ∧
      TargetSpec.parse sampleLib sampleOptions (.list [.string (ascii "person"),
        .dict [(ascii "name", .string (ascii "string|none"))]]) = .ok s ∧
      (b.feed sampleLib (XmlDocument.events ⟨ascii "root", [], .element (ascii "person") []
        (.element (ascii "name") [] (.text (ascii "x") .nil) .nil) .nil⟩)).var (ascii "names") =
          s.eval sampleLib sampleOptions ⟨[], .element (ascii "person") []
            (.element (ascii "name") [] (.text (ascii "x") .nil) .nil) .nil⟩ := by
  have hsome : (addMappings sampleLib sampleMappings (create sampleOptions)).isSome = true := by
    decide +kernel
  obtain ⟨b, hb⟩ := Option.isSome_iff_exists.mp hsome
  obtain ⟨s, hs, hplain⟩ : ∃ s, TargetSpec.parse sampleLib sampleOptions
    (.list [.string (ascii "person"),
      .dict [(ascii "name", .string (ascii "string|none"))]]) = .ok s ∧
        s.plain = true := ⟨_, rfl, by decide +kernel⟩
  have htagged : (XmlContent.element (ascii "person") []
      (.element (ascii "name") [] (.text (ascii "x") .nil) .nil) .nil).Tagged asciiNames :=
    ⟨by decide, by decide, ⟨by decide, by decide, trivial, trivial⟩, trivial⟩
  exact ⟨b, s, hb, hs, var_means (by decide) hb List.mem_cons_self hs hplain htagged _ _⟩

end StructXml2VarBuilder

end Xml2Var
end Nkit
