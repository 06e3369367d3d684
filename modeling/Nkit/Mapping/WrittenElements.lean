import Nkit.Mapping.Meaning
import Nkit.Xml.Elements
import Nkit.Xml.Formatting
import Nkit.Xml.TextPieces
import Nkit.Xml.TextValues

/-! A document that the converter writes in UTF-8, read element by element.  Between two tags stand
the elements that were written there, and white space of the layout only if there are any, or a text
that has a line of its own. -/

namespace Nkit
open OrderedMap XmlGrammar

namespace XmlContent

theorem IsText.children {c : XmlContent} {s : Bytes} (h : c.IsText s) : c.children = [] := by
  obtain ⟨h, -⟩ := h
  induction c with
  | nil => rfl
  | text s rest ih => exact ih h
  | element name attrs body rest _ _ => cases h

theorem Tagged.append {names : NameTable} {a b : XmlContent} (ha : a.Tagged names)
    (hb : b.Tagged names) :
    (a.append b).Tagged names := by
  induction a with
  | nil => exact hb
  | text s rest ih => exact ih ha
  | element name attrs body rest _ ih => exact ⟨ha.1, ha.2.1, ha.2.2.1, ih ha.2.2.2⟩

end XmlContent

inductive WrittenAs : Forest ElementLabel → List (Bytes × XmlElement) → Prop
  | nil : WrittenAs .nil []
  | node {e : ElementLabel} {children rest : Forest ElementLabel} {body : XmlContent}
      {cs : List (Bytes × XmlElement)}
      (hchildren : WrittenAs children body.children)
      (htext : children = .nil → e.textLine = false → e.endLine = false → body.characters = e.text)
      (hrest : WrittenAs rest cs) :
      WrittenAs (.node e children rest)
        ((e.name, ⟨e.attrs.map fun a => (a.1, normalizeValue a.2), body⟩) :: cs)

structure XmlBody.ReadAs (b : XmlBody) (attrs : List (Bytes × Bytes)) (e : XmlElement) : Prop where
  attrs : e.attrs = attrs.map fun a => (a.1, normalizeValue a.2)
  children : WrittenAs b.children e.content.children
  text : b.children = .nil → b.textLine = false → b.firstEnd = none → e.content.characters = b.text

theorem WrittenAs.of_append {f g : Forest ElementLabel} {cs : List (Bytes × XmlElement)}
    (h : WrittenAs (f.append g) cs) :
    ∃ ds es, cs = ds ++ es ∧ WrittenAs f ds ∧ WrittenAs g es := by
  induction f generalizing cs with
  | nil => exact ⟨[], cs, rfl, .nil, h⟩
  | node e children rest _ ih =>
    cases h with
    | node hchildren htext hrest =>
      obtain ⟨ds, es, rfl, hds, hes⟩ := ih hrest
      exact ⟨_, es, rfl, .node hchildren htext hds, hes⟩

theorem WrittenAs.of_concat {fs : List (Forest ElementLabel)} {cs : List (Bytes × XmlElement)}
    (h : WrittenAs (Forest.concat fs) cs) :
    ∃ pieces, cs = pieces.flatten ∧ List.Forall₂ WrittenAs fs pieces := by
  induction fs generalizing cs with
  | nil =>
    cases h
    exact ⟨[], rfl, .nil⟩
  | cons f fs ih =>
    obtain ⟨ds, es, rfl, hds, hes⟩ := h.of_append
    obtain ⟨pieces, rfl, hpieces⟩ := ih hes
    exact ⟨ds :: pieces, rfl, .cons hds hpieces⟩

theorem WrittenAs.of_element {name : Bytes} {attrs : List (Bytes × Bytes)} {b : XmlBody}
    {rest : Forest ElementLabel} {cs : List (Bytes × XmlElement)}
    (h : WrittenAs (b.element name attrs rest) cs) :
    ∃ e ds, cs = (name, e) :: ds ∧ b.ReadAs attrs e ∧ WrittenAs rest ds := by
  cases h with
  | node hchildren htext hrest =>
    refine ⟨_, _, rfl, ⟨rfl, hchildren, fun hnil hline hfirst => htext hnil hline ?_⟩, hrest⟩
    rw [hfirst, hnil]
    rfl

theorem WrittenAs.of_items {lib : TextLib} {o : ConverterOptions}
    {arrange : List (Bytes × Forest ElementLabel) → List (Bytes × Forest ElementLabel)}
    {name : Bytes} {items : List DynTree} {cs : List (Bytes × XmlElement)}
    (h : WrittenAs (Converter.itemForest lib o arrange name items) cs) :
    List.Forall₂ (fun v c => c.1 = name ∧
      (Converter.bodyOf lib o arrange [] v).ReadAs (Converter.attrTexts lib o v) c.2)
      items cs := by
  induction items generalizing cs with
  | nil =>
    rw [Converter.itemForest] at h
    cases h
    exact .nil
  | cons v items ih =>
    rw [Converter.itemForest] at h
    obtain ⟨e, ds, rfl, he, hds⟩ := h.of_element
    exact .cons ⟨rfl, he⟩ (ih hds)

def XmlElement.joined (e : XmlElement) : XmlElement := ⟨e.attrs, e.content.joined⟩

theorem XmlContent.children_joined (c : XmlContent) :
    c.joined.children = c.children.map fun x => (x.1, x.2.joined) := by
  induction c with
  | nil => rfl
  | text s rest ih =>
    refine Eq.trans ?_ ih
    rw [XmlContent.joined]
    cases rest.joined with
    | text s' rest => rfl
    | nil | element => cases s <;> rfl
  | element name attrs body rest _ ih => exact congrArg _ ih

theorem WrittenAs.congr {f : Forest ElementLabel} {cs ds : List (Bytes × XmlElement)}
    (h : WrittenAs f cs)
    (heq : cs.map (fun x => (x.1, x.2.joined)) = ds.map fun x => (x.1, x.2.joined)) :
    WrittenAs f ds := by
  induction h generalizing ds with
  | nil => exact List.map_eq_nil_iff.mp heq.symm ▸ .nil
  | @node e children rest body cs _ htext _ ihc ihr =>
    obtain ⟨⟨name, attrs, body'⟩, ds, rfl, hhead, hrest⟩ := List.map_eq_cons_iff.mp heq.symm
    simp only [XmlElement.joined, Prod.mk.injEq, XmlElement.mk.injEq] at hhead
    obtain ⟨rfl, rfl, hbody⟩ := hhead
    refine .node (ihc ?_) (fun hnil hline hend => ?_) (ihr hrest.symm)
    · rw [← XmlContent.children_joined, ← XmlContent.children_joined, hbody]
    · rw [← body'.characters_joined, hbody, XmlContent.characters_joined]
      exact htext hnil hline hend

/-- The names and texts of an element are those of XML. -/
structure ElementLabel.Sound (names : NameTable) (e : ElementLabel) : Prop where
  name : names.isName e.name = true
  attrNames : ∀ a ∈ e.attrs, names.isName a.1 = true
  attrTexts : ∀ a ∈ e.attrs, XmlText a.2
  distinct : (e.attrs.map Prod.fst).Nodup
  text : XmlText e.text

namespace Converter
variable {names : NameTable} {o : ConverterOptions}

theorem dictBody_children (lib : TextLib) (entries : List (Bytes × DynTree)) (dictIsEmpty : Bool)
    (f : Forest ElementLabel) :
    (dictBody lib o entries dictIsEmpty f).children = f := by
  rw [dictBody]
  split <;> rfl

section
variable (ho : o.transcoder = none)
include ho

variable {ro : Options} (hun : Unseen ro o.toVar2XmlOptions)
include hun

end

end Converter
end Nkit
