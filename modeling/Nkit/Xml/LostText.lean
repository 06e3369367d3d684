import Nkit.Encoding.EncodedText
import Nkit.Xml.Elements

/-! Text that gets lost on its way into another encoding. -/

namespace Nkit
open OrderedMap Wholes

/-- The references of XML to the characters that markup is made of. -/
def xmlReference (ch : Char) : Option Bytes :=
  if ch.toNat = 60 then some (ascii "&lt;")
  else if ch.toNat = 62 then some (ascii "&gt;")
  else if ch.toNat = 38 then some (ascii "&amp;")
  else if ch.toNat = 34 then some (ascii "&quot;")
  else if ch.toNat = 39 then some (ascii "&apos;")
  else none

/-- A section cannot hold a marker, which is cut in two. -/
def CdataPiece.Encodes (t : Transcoder) : CdataPiece → Bytes → Prop
  | run text, out => t.EncodesText (fun _ => none) text out
  | marker left right, out =>
    t.Ascii (left ++ right) ∧ out = left ++ cdataEnd ++ cdataBegin ++ right

/-- The output holds all of the text. -/
def Put.Encodes (t : Transcoder) : Put → Bytes → Prop
  | .raw s, out => out = s
  | .name s, out => t.EncodesText (fun _ => none) s out
  | .text s, out => t.EncodesText xmlReference s out
  | .cdata s, out => ∃ content, Joins (CdataPiece.Encodes t) (cdataPieces 0 [] s) content ∧
      out = cdataBegin ++ content ++ cdataEnd

/-- The run between two markers is at most one character, which is in the code page. -/
def CdataPiece.Kept (t : Transcoder) : CdataPiece → Prop
  | run text => text = [] ∨ ∃ ch, text = String.utf8EncodeChar ch ∧ t.Encodable ch
  | marker left right => t.Ascii (left ++ right)

/-- The text is UTF-8, all of its characters are in the code page, and a CDATA text has at most one
between two markers. -/
def Put.Kept (t : Transcoder) : Put → Prop
  | .raw _ => True
  | .name s => t.TextKept (fun _ => none) s
  | .text s => t.TextKept xmlReference s
  | .cdata s => ∀ piece ∈ cdataPieces 0 [] s, piece.Kept t

namespace Converter
variable {t : Transcoder} {lib : TextLib} {o : ConverterOptions} {find : Bytes → Option Transcoder}
  {settings : ConverterSettings} {data : DynTree}

theorem answers_spetialChar : Transcoder.Answers spetialCharCallback xmlReference := by
  refine ⟨fun ch => ?_, fun ch text h => ?_⟩
  · have h60 := Transcoder.first_byte_eq_iff ch (b := 60) (by decide)
    have h62 := Transcoder.first_byte_eq_iff ch (b := 62) (by decide)
    have h38 := Transcoder.first_byte_eq_iff ch (b := 38) (by decide)
    have h34 := Transcoder.first_byte_eq_iff ch (b := 34) (by decide)
    have h39 := Transcoder.first_byte_eq_iff ch (b := 39) (by decide)
    simp only [spetialCharCallback, xmlReference, h60, h62, h38, h34, h39, UInt8.reduceToNat]
  · rw [xmlReference] at h
    split_ifs at h
    all_goals omega

theorem piece_encodes_iff (piece : CdataPiece) :
    piece.Encodes t (piece.write (some t)) ↔ piece.Kept t := by
  cases piece with
  | marker left right => exact and_iff_left rfl
  | run text => exact Transcoder.encodesText_pointer_iff

theorem piece_bounded (t : Transcoder) :
    Bounded (CdataPiece.Encodes t) (CdataPiece.write (some t)) := by
  intro piece x h
  cases piece with
  | marker left right => exact (congrArg List.length h.2).ge
  | run text => exact Transcoder.EncodesText.pointer_length_le h

theorem put_encodes_iff (put : Put) : put.Encodes t (written (some t) put) ↔ put.Kept t := by
  cases put with
  | raw s => exact ⟨fun _ => trivial, fun _ => rfl⟩
  | name s => exact Transcoder.encodesText_iff Transcoder.answers_none
  | text s => exact Transcoder.encodesText_iff answers_spetialChar
  | cdata s =>
    simp only [Put.Kept, ← piece_encodes_iff, ← joins_flatMap_iff (piece_bounded t)]
    constructor
    · rintro ⟨content, hrow, hout⟩
      rw [List.append_cancel_left (List.append_cancel_right hout)]
      exact hrow
    · exact fun hrow => ⟨_, hrow, rfl⟩

theorem put_bounded (t : Transcoder) : Bounded (Put.Encodes t) (written (some t)) := by
  intro put x h
  cases put with
  | raw s => exact (congrArg List.length h).ge
  | name s => exact Transcoder.EncodesText.length_le Transcoder.answers_none h
  | text s => exact Transcoder.EncodesText.length_le answers_spetialChar h
  | cdata s =>
    obtain ⟨content, hrow, rfl⟩ := h
    have hle := hrow.length_le (piece_bounded t)
    rw [written]
    simp only [List.length_append]
    omega

/-- What `Convert` hands over to be written for the data. -/
def dataPuts (lib : TextLib) (o : ConverterOptions) (data : DynTree) : List Put :=
  documentPuts o (attrTexts lib o data) (bodyOf lib o o.members o.itemName data)

/-- `Process` fails with a message, or its output holds every text of the data, encoded. -/
def LosesNothing (lib : TextLib) (find : Bytes → Option Transcoder) (settings : ConverterSettings)
    (t : Transcoder) (data : DynTree) :
    Prop :=
  (∃ message, process lib find settings data = some (.error message) ∧ message ≠ []) ∨
  ∃ o out, ConverterOptions.create find settings = .ok o ∧ process lib find settings data =
    some (.ok out) ∧
    Joins (Put.Encodes t) (dataPuts lib o data) out

theorem LosesNothing.kept (h : LosesNothing lib find settings t data)
    (hcreate : ConverterOptions.create find settings = .ok o) (ht : o.transcoder = some t)
    (hdata : data.isDict || data.isList) : ∀ put ∈ dataPuts lib o data, put.Kept t := by
  rw [LosesNothing, process, hcreate] at h
  simp only [processWith_eq, hdata, if_true] at h
  rcases h with ⟨message, h, -⟩ | ⟨o', out, ho', hout, hrow⟩
  · cases h
  · obtain rfl := Except.ok.inj ho'
    obtain rfl := Except.ok.inj (Option.some.inj hout)
    rw [write, ht] at hrow
    intro put hput
    exact (put_encodes_iff put).mp ((joins_flatMap_iff (put_bounded t)).mp hrow put hput)

end Converter
end Nkit
