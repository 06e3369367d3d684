import Nkit.Encoding.Transcoder
import Nkit.Xml.Parsing

/-! What `PutText` writes for a text in another encoding, and whether markup can come of it
(`var2xml.h`). -/

namespace Nkit

def spetialCharCallback (ch : UInt8) : Option Bytes :=
  if ch = 60 then some (ascii "&lt;")
  else if ch = 62 then some (ascii "&gt;")
  else if ch = 38 then some (ascii "&amp;")
  else if ch = 34 then some (ascii "&quot;")
  else if ch = 39 then some (ascii "&apos;")
  else none

def isSpetial (b : UInt8) : Bool := (spetialCharCallback b).isSome

namespace Converter

/-- The innermost `PutText`.  What `FromUtf8` returns is not looked at. -/
def putText (transcoder : Option Transcoder) (text : Bytes) : Bytes :=
  match transcoder with
  | none => text.flatMap fun ch => (spetialCharCallback ch).getD [ch]
  | some transcoder => (transcoder.fromUtf8With spetialCharCallback text).2

inductive TextPiece where
  | reference (ch : UInt8)
  | character (c : UInt8)

def TextPiece.bytes : TextPiece → Bytes
  | reference ch => (spetialCharCallback ch).getD []
  | character c => [c]

def pieceStep (transcoder : Option Transcoder) (src : Bytes) : Option (List TextPiece × ℕ) :=
  let ch := src.getD 0 0
  match spetialCharCallback ch with
  | some _ => some ([.reference ch], 1)
  | none =>
    match transcoder with
    | none => some ([.character ch], 1)
    | some transcoder =>
      (transcoder.fromUtf8Symbol src src.length).map fun (c, n) => ([.character c], n)

def textPieces (transcoder : Option Transcoder) (text : Bytes) : List TextPiece :=
  (Scan.run (pieceStep transcoder) text).2

def textStep (transcoder : Option Transcoder) (src : Bytes) : Option (Bytes × ℕ) :=
  match transcoder with
  | none => some ((spetialCharCallback (src.getD 0 0)).getD [src.getD 0 0], 1)
  | some transcoder => transcoder.callbackStep spetialCharCallback src

variable {transcoder : Option Transcoder} {t : Transcoder} {text src : Bytes}

theorem pieceStep_cases {out : List TextPiece} {n : ℕ}
    (h : pieceStep transcoder src = some (out, n)) :
    (isSpetial (src.getD 0 0) = true ∧ out = [.reference (src.getD 0 0)] ∧ n = 1) ∨
    (isSpetial (src.getD 0 0) = false ∧ ∃ c, out = [.character c] ∧
      (transcoder = none ∧ c = src.getD 0 0 ∧ n = 1 ∨ ∃ t, transcoder = some t ∧
        t.fromUtf8Symbol src src.length = some (c, n))) := by
  simp only [pieceStep] at h
  cases hch : spetialCharCallback (src.getD 0 0) with
  | some text =>
    rw [hch] at h
    cases h
    exact .inl ⟨Option.isSome_of_eq_some hch, rfl, rfl⟩
  | none =>
    have hplain : isSpetial (src.getD 0 0) = false := by rw [isSpetial, hch, Option.isSome_none]
    rw [hch] at h
    cases transcoder with
    | none =>
      cases h
      exact .inr ⟨hplain, _, rfl, .inl ⟨rfl, rfl, rfl⟩⟩
    | some t =>
      obtain ⟨⟨c, n'⟩, hsymbol, heq⟩ := Option.map_eq_some_iff.mp h
      obtain ⟨rfl, rfl⟩ := Prod.mk.inj heq
      exact .inr ⟨hplain, c, rfl, .inr ⟨t, rfl, hsymbol⟩⟩

theorem pieceStep_progress (transcoder : Option Transcoder) :
    Scan.Progress (pieceStep transcoder) := by
  intro src out n h
  rcases pieceStep_cases h with ⟨-, -, rfl⟩ | ⟨-, c, -, ⟨-, -, rfl⟩ | ⟨t, -, hsymbol⟩⟩
  · exact Nat.one_pos
  · exact Nat.one_pos
  · obtain ⟨hwell, rfl, -⟩ := Transcoder.symbol_cases hsymbol
    exact hwell.2.1

theorem textStep_eq (transcoder : Option Transcoder) (src : Bytes) :
    textStep transcoder src = (pieceStep transcoder src).map fun r =>
      (r.1.flatMap TextPiece.bytes, r.2) := by
  cases hch : spetialCharCallback (src.getD 0 0) with
  | some text =>
    have hpiece : TextPiece.bytes (.reference (src.getD 0 0)) = text := by
      rw [TextPiece.bytes, hch, Option.getD_some]
    cases transcoder with
    | none =>
      simp only [textStep, pieceStep, hch, Option.map_some, List.flatMap_singleton, hpiece,
        Option.getD_some]
    | some t =>
      simp only [textStep, Transcoder.callbackStep, pieceStep, hch, Option.map_some,
        List.flatMap_singleton, hpiece]
  | none =>
    cases transcoder with
    | none =>
      simp only [textStep, pieceStep, hch, Option.map_some, List.flatMap_singleton, TextPiece.bytes,
        Option.getD_none]
    | some t =>
      simp only [textStep, Transcoder.callbackStep, Transcoder.symbolStep, pieceStep, hch,
        Option.map_map]
      congr 1

theorem putText_none (text : Bytes) : putText none text = (Scan.run (textStep none) text).2 := by
  induction text with
  | nil => rfl
  | cons ch text ih =>
    have hprogress : Scan.Progress (textStep none) := fun _ _ _ h => by
      cases h
      exact Nat.one_pos
    rw [Scan.run_some hprogress (List.cons_ne_nil ch text) rfl]
    exact congrArg (_ ++ ·) ih

theorem putText_eq (transcoder : Option Transcoder) (text : Bytes) :
    putText transcoder text = (textPieces transcoder text).flatMap TextPiece.bytes := by
  have hrun := Scan.run_map TextPiece.bytes (fun src _ => textStep_eq transcoder src) text
  have hpieces := congrArg Prod.snd hrun
  cases transcoder with
  | none => exact (putText_none text).trans hpieces
  | some t => exact hpieces

theorem escapeText_eq (text : Bytes) : escapeText text = putText none text := by
  have hchar : ∀ ch, spetialChar ch = (spetialCharCallback ch).getD [ch] := fun ch => by
    rw [spetialChar, spetialCharCallback]
    split_ifs <;> rfl
  rw [escapeText, putText, funext hchar]

def references : List Bytes :=
  [ascii "&lt;", ascii "&gt;", ascii "&amp;", ascii "&quot;", ascii "&apos;"]

/-- No byte of markup is written, and no `&` but as the first byte of a reference from the callback.
-/
structure NoMarkup (transcoder : Option Transcoder) (text : Bytes) : Prop where
  not_mem : ∀ b ∈ putText transcoder text, b ≠ 60 ∧ b ≠ 62 ∧ b ≠ 34 ∧ b ≠ 39
  ampersand : ∀ piece ∈ textPieces transcoder text, 38 ∈ piece.bytes →
    ∃ ch rest, piece = .reference ch ∧ piece.bytes = 38 :: rest ∧ piece.bytes ∈ references ∧
      38 ∉ rest

/-- The symbol decodes to a unit that the code page has at a byte of markup. -/
def Injects (t : Transcoder) (src : Bytes) : Prop :=
  utf8Size (src.getD 0 0) ≤ src.length ∧ isSpetial (src.getD 0 0) = false ∧
    ∃ unit low n c, utf8ToUtf16 src = some ((unit, low), n) ∧ t.getChar unit = some c ∧
      isSpetial c = true

theorem spetialCharCallback_mem {b : UInt8} (h : isSpetial b = true) :
    b ∈ ([60, 62, 38, 34, 39] : Bytes) := by
  rw [isSpetial, spetialCharCallback] at h
  simp only [List.mem_cons, List.not_mem_nil, or_false]
  split_ifs at h with h₁ h₂ h₃ h₄ h₅
  · exact .inl h₁
  · exact .inr (.inl h₂)
  · exact .inr (.inr (.inl h₃))
  · exact .inr (.inr (.inr (.inl h₄)))
  · exact .inr (.inr (.inr (.inr h₅)))
  · cases h

theorem reference_bytes {ch : UInt8} (h : isSpetial ch = true) :
    ∃ rest, (TextPiece.reference ch).bytes = 38 :: rest ∧ 38 :: rest ∈ references ∧ 38 ∉ rest ∧
      ∀ b ∈ 38 :: rest, b ≠ 60 ∧ b ≠ 62 ∧ b ≠ 34 ∧ b ≠ (39 : UInt8) := by
  have hmem := spetialCharCallback_mem h
  have hall : ∀ bytes : Bytes, bytes.all (fun b => b ≠ 60 ∧ b ≠ 62 ∧ b ≠ 34 ∧ b ≠ 39) = true →
      ∀ b ∈ bytes, b ≠ 60 ∧ b ≠ 62 ∧ b ≠ 34 ∧ b ≠ (39 : UInt8) :=
    fun _ hbytes b hb => of_decide_eq_true (List.all_eq_true.mp hbytes b hb)
  simp only [List.mem_cons, List.not_mem_nil, or_false] at hmem
  rcases hmem with rfl | rfl | rfl | rfl | rfl
  all_goals exact ⟨_, rfl, by decide, by decide, hall _ (by decide)⟩

theorem isSpetial_eq_false {b : UInt8} (h : isSpetial b = false) :
    b ≠ 38 ∧ b ≠ 60 ∧ b ≠ 62 ∧ b ≠ 34 ∧ b ≠ 39 := by
  refine ⟨?_, ?_, ?_, ?_, ?_⟩
  all_goals
    rintro rfl
    cases h

theorem injects_iff :
    Injects t src ↔ isSpetial (src.getD 0 0) = false ∧ ∃ c n, t.fromUtf8Symbol src src.length =
      some (c, n) ∧ isSpetial c = true := by
  rw [Injects, Transcoder.fromUtf8Symbol]
  constructor
  · rintro ⟨hle, hplain, unit, low, n, c, hread, hget, hc⟩
    refine ⟨hplain, c, utf8Size (src.getD 0 0), ?_, hc⟩
    rw [if_neg (Nat.not_lt.mpr hle), hread]
    simp only [hget, Option.map_some]
  · rintro ⟨hplain, c, n, hsymbol, hc⟩
    split_ifs at hsymbol with hlen
    cases hread : utf8ToUtf16 src with
    | none =>
      rw [hread] at hsymbol
      cases hsymbol
    | some r =>
      obtain ⟨⟨unit, low⟩, k⟩ := r
      rw [hread] at hsymbol
      obtain ⟨c', hget, heq⟩ := Option.map_eq_some_iff.mp hsymbol
      obtain ⟨rfl, -⟩ := Prod.mk.inj heq
      exact ⟨Nat.le_of_not_lt hlen, hplain, unit, low, k, c', rfl, hget, hc⟩

theorem mem_textPieces_iff {piece : TextPiece} :
    piece ∈ textPieces transcoder text ↔
      ∃ src out n, Scan.Reaches (textStep transcoder) text src ∧ src ≠ [] ∧
        pieceStep transcoder src = some (out, n) ∧ piece ∈ out := by
  rw [textPieces, Scan.mem_run_iff (pieceStep_progress transcoder)]
  simp only [Scan.reaches_map TextPiece.bytes fun src _ => textStep_eq transcoder src]

theorem NoMarkup.character (hsafe : NoMarkup transcoder text) {c : UInt8}
    (hpiece : .character c ∈ textPieces transcoder text) :
    isSpetial c = false := by
  rw [← Bool.not_eq_true]
  intro hc
  have hwritten : c ∈ putText transcoder text := by
    rw [putText_eq]
    exact List.mem_flatMap.mpr ⟨_, hpiece, List.mem_singleton_self c⟩
  have hfour := hsafe.not_mem c hwritten
  have hfive := spetialCharCallback_mem hc
  simp only [List.mem_cons, List.not_mem_nil, or_false] at hfive
  have hamp : c = 38 := by
    rcases hfive with h | h | h | h | h
    · exact absurd h hfour.1
    · exact absurd h hfour.2.1
    · exact h
    · exact absurd h hfour.2.2.1
    · exact absurd h hfour.2.2.2
  subst hamp
  obtain ⟨ch, rest, heq, -⟩ := hsafe.ampersand _ hpiece (List.mem_singleton_self 38)
  cases heq

theorem noMarkup_of_pieces (hpieces : ∀ piece ∈ textPieces transcoder text,
      (∃ ch, piece = .reference ch ∧ isSpetial ch = true) ∨ ∃ c, piece = .character c ∧
      isSpetial c = false) :
    NoMarkup transcoder text where
  not_mem := by
    intro b hb
    rw [putText_eq, List.mem_flatMap] at hb
    obtain ⟨piece, hpiece, hb⟩ := hb
    rcases hpieces piece hpiece with ⟨ch, rfl, hch⟩ | ⟨c, rfl, hc⟩
    · obtain ⟨rest, hbytes, -, -, hfour⟩ := reference_bytes hch
      rw [hbytes] at hb
      exact hfour b hb
    · obtain rfl := List.mem_singleton.mp hb
      exact (isSpetial_eq_false hc).2
  ampersand := by
    intro piece hpiece hamp
    rcases hpieces piece hpiece with ⟨ch, rfl, hch⟩ | ⟨c, rfl, hc⟩
    · obtain ⟨rest, hbytes, hmem, hrest, -⟩ := reference_bytes hch
      exact ⟨ch, rest, rfl, hbytes, hbytes ▸ hmem, hrest⟩
    · exact absurd (List.mem_singleton.mp hamp).symm (isSpetial_eq_false hc).1

/-- Markup comes of a symbol that is not one of the five bytes, but that the code page puts there.
-/
theorem noMarkup_iff (transcoder : Option Transcoder) (text : Bytes) :
    NoMarkup transcoder text ↔
      ∀ t ∈ transcoder, ∀ src, src ≠ [] → Scan.Reaches (textStep transcoder) text src →
        ¬Injects t src := by
  constructor
  · intro hsafe t ht src hne hreach hinjects
    obtain ⟨hplain, c, n, hsymbol, hc⟩ := injects_iff.mp hinjects
    obtain rfl := Option.mem_def.mp ht
    have hstep : pieceStep (some t) src = some ([.character c], n) := by
      have hch : spetialCharCallback (src.getD 0 0) = none := by
        rwa [isSpetial, Option.isSome_eq_false_iff, Option.isNone_iff_eq_none] at hplain
      simp only [pieceStep, hch, hsymbol, Option.map_some]
    have hpiece : .character c ∈ textPieces (some t) text :=
      mem_textPieces_iff.mpr ⟨src, _, n, hreach, hne, hstep, List.mem_singleton_self _⟩
    rw [hsafe.character hpiece] at hc
    cases hc
  · intro hsafe
    apply noMarkup_of_pieces
    intro piece hpiece
    obtain ⟨src, out, n, hreach, hne, hstep, hmem⟩ := mem_textPieces_iff.mp hpiece
    rcases pieceStep_cases hstep with ⟨hch, rfl, -⟩
      | ⟨hplain, c, rfl, ⟨-, rfl, -⟩ | ⟨t, rfl, hsymbol⟩⟩
    · exact .inl ⟨_, List.mem_singleton.mp hmem, hch⟩
    · exact .inr ⟨_, List.mem_singleton.mp hmem, hplain⟩
    · refine .inr ⟨c, List.mem_singleton.mp hmem, Bool.eq_false_iff.mpr fun hc => ?_⟩
      -- the code page has put the byte there
      exact hsafe t rfl src hne hreach (injects_iff.mpr ⟨hplain, c, n, hsymbol, hc⟩)

/-- The overlong form of `<`. -/
theorem overlong_form_injects : ¬NoMarkup (some Transcoder.latin1) [0xC0, 0xBC] := by
  have hsymbol : Transcoder.latin1.fromUtf8Symbol [0xC0, 0xBC] 2 = some (60, 2) :=
    Transcoder.latin1_symbol 60 (by decide) (by decide) (by decide)
  have hstep : pieceStep (some Transcoder.latin1) [0xC0, 0xBC] = some ([.character 60], 2) := by
    simp only [pieceStep,
      show spetialCharCallback (([0xC0, 0xBC] : Bytes).getD 0 0) = none from rfl,
      show ([0xC0, 0xBC] : Bytes).length = 2 from rfl, hsymbol, Option.map_some]
  have hpiece : .character 60 ∈ textPieces (some Transcoder.latin1) [0xC0, 0xBC] :=
    mem_textPieces_iff.mpr ⟨_, _, 2, .refl _, by decide, hstep, List.mem_singleton_self _⟩
  intro hsafe
  exact absurd (hsafe.character hpiece) (by decide)

end Converter
end Nkit
