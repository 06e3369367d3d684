import Nkit.Xml.Grammar

/-! Contents up to the pieces in which the parser delivers a text. -/

namespace Nkit

namespace XmlContent

def joined : XmlContent → XmlContent
  | nil => nil
  | text s rest =>
    match rest.joined with
    | text s' rest => text (s ++ s') rest
    | rest => if s.isEmpty then rest else text s rest
  | element name attrs body rest => element name attrs body.joined rest.joined

@[simp] theorem characters_joined (c : XmlContent) : c.joined.characters = c.characters := by
  induction c with
  | nil => rfl
  | text s rest ih =>
    rw [joined, characters, ← ih]
    split
    · rename_i s' rest' hrest
      rw [hrest, characters, characters, List.append_assoc]
    · split_ifs with hs
      · rw [List.isEmpty_iff.mp hs, List.nil_append]
      · rfl
  | element name attrs body rest _ ih => exact ih

def Ends (events : List XmlEvent) : Prop := ∀ e ∈ events.head?, ∃ name, e = .endElement name

end XmlContent

end Nkit
