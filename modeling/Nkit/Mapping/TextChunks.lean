import Nkit.Base.Chunks
import Nkit.Mapping.FailedAdds
import Nkit.Xml.Formatting

/-! The pieces in which the XML parser delivers a text.  A target item hangs in the tree or among
the masks only once, so a text event comes to each of them once. -/

namespace Nkit
open Chunks

theorem AnyXml2VarBuilder.feed_rechunked (o : Options) {events events' : List XmlEvent}
    (h : Rechunked .text events events') (s : AnyXml2VarBuilder) :
    s.feed o events = s.feed o events' := by
  have hfold : ∀ events, s.feed o events = events.foldl (fun r e => r.bind fun s => s.step o e)
      (some s) :=
    fun events => foldlM_eq_foldl (step o) events (some s)
  rw [hfold, hfold]
  apply h.foldl_eq (P := fun _ => True) (fun _ _ _ => trivial) _ trivial
  intro r p q _
  cases r with
  | none => rfl
  | some s => exact congrArg some (onText_append p q s)

namespace Xml2Var

theorem TargetState.onText_onText (target : Target) (p q : Bytes) (s : TargetState) :
    (s.onText target p).onText target q = s.onText target (p ++ q) := by
  cases target with
  | scalar t => simp [TargetState.onText]
  | object targetItems => rfl
  | list targetItems => rfl

namespace TargetGroup
variable {E : Type} (g : TargetGroup E) (p q : Bytes) (i j : ℕ)

theorem onText_onText : (g.onText p i).onText q i = g.onText (p ++ q) i := by
  unfold onText
  cases h : (g.items i).path.attributeName.isEmpty with
  | true => simp [setState, h, TargetState.onText_onText]
  | false => simp [h]

theorem onText_swap (hne : i ≠ j) : (g.onText p j).onText q i = (g.onText q i).onText p j := by
  unfold onText
  cases hi : (g.items i).path.attributeName.isEmpty with
  | true =>
    cases hj : (g.items j).path.attributeName.isEmpty with
    | true => simp [setState, hi, hj, hne, hne.symm, Function.update_comm hne]
    | false => simp [setState, hi, hj]
  | false =>
    cases hj : (g.items j).path.attributeName.isEmpty with
    | true => simp [setState, hi, hj]
    | false => simp [hi, hj]

end TargetGroup

namespace StructXml2VarBuilder
variable {b : StructXml2VarBuilder} {created : List ItemId} {lib : ScalarLib} {o : StructOptions}

def textItems (b : StructXml2VarBuilder) : List ItemId := b.currentNode ++ b.matchingMasks

theorem onText_eq (text : Bytes) (b : StructXml2VarBuilder) :
    b.onText text = b.fire (fun i g => g.onText text i) b.textItems := by
  rw [onText, textItems, fire, fire, fire, List.foldl_append]

theorem Kept.textItems_nodup (h : b.Kept created) : b.textItems.Nodup := by
  rw [textItems, currentNode, matchingMasks, h.hung.nodes, h.hung.masks]
  apply (h.nodup.filter _).append ((h.nodup.filter _).filter _)
  intro i hi hi'
  -- a mask is in no node of the tree
  have hmask := (List.mem_filter.mp (List.mem_filter.mp hi').1).2
  have hnode := (List.mem_filter.mp hi).2
  rw [inNode, hmask] at hnode
  cases hnode

theorem onText_textItems (text : Bytes) (b : StructXml2VarBuilder) :
    (b.onText text).textItems = b.textItems := by
  rw [onText_eq]
  have hat := fire_itemAt (b := b) (fun i g => TargetGroup.onText_sameItems g i text) b.textItems
  have hnode : (b.fire (fun i g => g.onText text i) b.textItems).currentNode = b.currentNode := by
    rw [fire_frame]
    rfl
  have hmasks : (b.fire (fun i g => g.onText text i) b.textItems).matchingMasks =
      b.matchingMasks := by
    rw [fire_frame] at hat ⊢
    apply List.filter_congr
    intro i _
    exact congrArg (fun item : TargetItem ℕ => item.path.same String2IdMap.starId b.currentPath)
      (hat i)
  rw [textItems, hnode, hmasks]
  rfl

theorem Kept.onText_onText (h : b.Kept created) (p q : Bytes) :
    (b.onText p).onText q = b.onText (p ++ q) := by
  rw [onText_eq q, onText_textItems, onText_eq p, onText_eq (p ++ q)]
  apply foldl_foldl _ _ h.textItems_nodup
  · rintro b ⟨k, i⟩ ⟨k', j⟩ hne
    by_cases hk : k = k'
    · subst hk
      have hij : i ≠ j := fun h => hne (congrArg _ h)
      simp only [Function.update_self, Function.update_idem, TargetGroup.onText_swap _ _ _ _ _ hij]
    · -- calls in different mappings
      simp only [Function.update_of_ne hk, Function.update_of_ne (Ne.symm hk),
        Function.update_comm hk]
  · intro b i
    simp only [Function.update_self, Function.update_idem, TargetGroup.onText_onText]

theorem Run.feed_rechunked {passed : List (Bytes × DynTree)} (h : Run lib o passed b)
    {events events' : List XmlEvent} (hevents : Rechunked .text events events') :
    b.feed lib events = b.feed lib events' := by
  obtain ⟨-, created, hkept, -⟩ := h.kept
  exact hevents.foldl_eq (P := fun b => b.Kept created) (fun b e hb => hb.step e)
    (fun b p q hb => hb.onText_onText p q) hkept

end StructXml2VarBuilder

open StructXml2VarBuilder

/-- Both builders end in the same state wherever the texts were cut, and after any mappings. -/
theorem rechunked_same {events events' : List XmlEvent} (h : Rechunked .text events events') :
    (∀ o (s : AnyXml2VarBuilder), s.feed o events = s.feed o events') ∧
    ∀ lib o passed b, Run lib o passed b → b.feed lib events = b.feed lib events' :=
  ⟨fun o s => s.feed_rechunked o h, fun _ _ _ _ hrun => hrun.feed_rechunked h⟩

def rootWith (texts : List XmlEvent) : List XmlEvent :=
  [.startElement (ascii "root") [], .startElement (ascii "a") []] ++
    (texts ++ [.endElement (ascii "a"), .endElement (ascii "root")])

theorem rechunked_rootWith :
    Rechunked .text (rootWith [.text (ascii "12")])
      (rootWith [.text (ascii "1"), .text (ascii "2")]) := by
  apply Rechunked.event
  apply Rechunked.event
  have hends : Rechunked XmlEvent.text [.endElement (ascii "a"), .endElement (ascii "root")]
      [.endElement (ascii "a"), .endElement (ascii "root")] := .event _ (.event _ .nil)
  have hcut : [ascii "12"].flatten = [ascii "1", ascii "2"].flatten := rfl
  exact .texts (by simp [ascii_ne_nil]) (by simp [ascii_ne_nil]) hcut hends

theorem rechunked_same_digits :
    AnyXml2VarBuilder.create.feed StructXml2VarBuilder.sampleOptions.toOptions
      (rootWith [.text (ascii "12")]) =
        AnyXml2VarBuilder.create.feed StructXml2VarBuilder.sampleOptions.toOptions
          (rootWith [.text (ascii "1"), .text (ascii "2")]) ∧
      ((create StructXml2VarBuilder.sampleOptions).addMapping sampleLib (ascii "m")
        sampleMapping).2.feed sampleLib (rootWith [.text (ascii "12")]) =
        ((create StructXml2VarBuilder.sampleOptions).addMapping sampleLib (ascii "m")
          sampleMapping).2.feed sampleLib
          (rootWith [.text (ascii "1"), .text (ascii "2")]) := by
  obtain ⟨hany, hstruct⟩ := rechunked_same rechunked_rootWith
  refine ⟨hany _ _, hstruct sampleLib StructXml2VarBuilder.sampleOptions _ _
    (Run.create.addMapping (ascii "m") sampleMapping ?_)⟩
  rw [show ((create StructXml2VarBuilder.sampleOptions).addMapping sampleLib (ascii "m")
    sampleMapping).1 = .ok () from rfl]
  simp

end Xml2Var
end Nkit
