import Nkit.Encoding.Transcoder
import Nkit.Xml.Parsing

/-! The loop of `PutCdata` by its counters (`var2xml.h`). -/

namespace Nkit

/-- `AppendTranscoded` of a pointer and a length. -/
def appendTranscodedPointer (transcoder : Option Transcoder) (text : Bytes) (len : ℕ) : Bytes :=
  match transcoder with
  | none => text.take len
  | some transcoder => (transcoder.fromUtf8Pointer text len).2

/-- The comparisons with a marker; `none` reads behind the end. -/
def matchesAt (cdata : Bytes) : Bytes → ℕ → Option Bool
  | [], _ => some true
  | ch :: marker, i => do
    let b ← cdata[i]?
    if b == ch then matchesAt cdata marker (i + 1) else some false

structure CdataLoop where
  i : ℕ
  rest : ℕ
  first : ℕ
  len : ℕ
  out : Bytes

namespace CdataLoop

def atMarker (marker cdata : Bytes) (s : CdataLoop) : Option Bool :=
  if s.rest ≥ marker.length then matchesAt cdata marker s.i else some false

/-- What has been passed since the last marker, from `cdata.at(first)` on. -/
def putRun (transcoder : Option Transcoder) (cdata : Bytes) (s : CdataLoop) : Option CdataLoop :=
  if s.first < cdata.length ∧ s.first + s.len ≤ cdata.length then
    some { s with out := s.out ++ appendTranscodedPointer transcoder (cdata.drop s.first) s.len }
  else none

/-- A marker, cut into `left` and `right`. -/
def passMarker (transcoder : Option Transcoder) (cdata left right : Bytes) (s : CdataLoop) :
    Option CdataLoop := do
  let length := (left ++ right).length
  let s ← s.putRun transcoder cdata
  some
    { i := s.i + length - 1
      rest := s.rest - (length - 1)
      first := s.i + length
      len := 0
      out := s.out ++ left ++ cdataEnd ++ cdataBegin ++ right }

def body (transcoder : Option Transcoder) (cdata : Bytes) (s : CdataLoop) : Option CdataLoop := do
  if ← s.atMarker cdataBegin cdata then s.passMarker transcoder cdata (ascii "<![") (ascii "CDATA[")
  else if ← s.atMarker cdataEnd cdata then s.passMarker transcoder cdata (ascii "]]") (ascii ">")
  else some { s with len := s.len + 1 }

def loop (transcoder : Option Transcoder) (cdata : Bytes) : ℕ → CdataLoop → Option CdataLoop
  | fuel, s =>
    if s.i = cdata.length then some s
    else
      match fuel with
      | 0 => none
      | fuel + 1 => do
        let s ← s.body transcoder cdata
        loop transcoder cdata fuel { s with i := s.i + 1, rest := s.rest - 1 }

def finish (transcoder : Option Transcoder) (cdata : Bytes) (s : CdataLoop) : Option Bytes := do
  let s ← if s.len ≠ 0 then s.putRun transcoder cdata else some s
  some (s.out ++ cdataEnd)

/-- `PutCdata`; `none` would be an index outside the text, or a loop that goes on for more rounds
than the text has bytes. -/
def putCdata (transcoder : Option Transcoder) (cdata : Bytes) : Option Bytes := do
  let s ← loop transcoder cdata cdata.length ⟨0, cdata.length, 0, 0, cdataBegin⟩
  s.finish transcoder cdata

end CdataLoop

inductive CdataPiece where
  | run (text : Bytes)
  | marker (left right : Bytes)

namespace CdataPiece

def write (transcoder : Option Transcoder) : CdataPiece → Bytes
  | run text => appendTranscodedPointer transcoder text text.length
  | marker left right => left ++ cdataEnd ++ cdataBegin ++ right

end CdataPiece

/-- The pieces, found as `putCdataLoop` does. -/
def cdataPieces : ℕ → Bytes → Bytes → List CdataPiece
  | _, run, [] => [.run run]
  | skip + 1, run, _ :: rest => cdataPieces skip run rest
  | 0, run, ch :: rest =>
    if cdataBegin.isPrefixOf (ch :: rest) then
      .run run :: .marker (ascii "<![") (ascii "CDATA[") :: cdataPieces (cdataBegin.length - 1) []
        rest
    else if cdataEnd.isPrefixOf (ch :: rest) then
      .run run :: .marker (ascii "]]") (ascii ">") :: cdataPieces (cdataEnd.length - 1) [] rest
    else cdataPieces 0 (run ++ [ch]) rest

section
variable {transcoder : Option Transcoder} {cdata : Bytes}

theorem appendTranscodedPointer_append (transcoder : Option Transcoder) (text rest : Bytes) :
    appendTranscodedPointer transcoder (text ++ rest) text.length =
      appendTranscodedPointer transcoder text text.length := by
  cases transcoder with
  | none => rw [appendTranscodedPointer, appendTranscodedPointer, List.take_left, List.take_length]
  | some t =>
    rw [appendTranscodedPointer, appendTranscodedPointer, Transcoder.fromUtf8Pointer,
      Transcoder.fromUtf8Pointer, Transcoder.fromUtf8Symbol_append]

theorem cdataPieces_skip (k : ℕ) (run s : Bytes) :
    cdataPieces k run s = cdataPieces 0 run (s.drop k) := by
  induction k generalizing s with
  | zero => rfl
  | succ k ih =>
    cases s with
    | nil => rfl
    | cons b s => exact ih s

theorem putCdataLoop_eq (skip : ℕ) (run s : Bytes) :
    putCdataLoop skip run s = (cdataPieces skip run s).flatMap (CdataPiece.write none) := by
  induction skip, run, s using cdataPieces.induct with
  | case1 skip run =>
    rw [putCdataLoop, cdataPieces, List.flatMap_singleton, CdataPiece.write,
      appendTranscodedPointer, List.take_length]
  | case2 skip run ch rest ih => rw [putCdataLoop, cdataPieces, ih]
  | case3 run ch rest hbegin ih =>
    rw [putCdataLoop, cdataPieces, if_pos hbegin, if_pos hbegin, ih, List.flatMap_cons,
      List.flatMap_cons, CdataPiece.write, CdataPiece.write, appendTranscodedPointer,
      List.take_length]
    simp only [List.append_assoc]
  | case4 run ch rest hbegin hend ih =>
    rw [putCdataLoop, cdataPieces, if_neg hbegin, if_neg hbegin, if_pos hend, if_pos hend, ih,
      List.flatMap_cons, List.flatMap_cons, CdataPiece.write, CdataPiece.write,
      appendTranscodedPointer, List.take_length]
    simp only [List.append_assoc]
  | case5 run ch rest hbegin hend ih =>
    rw [putCdataLoop, cdataPieces, if_neg hbegin, if_neg hbegin, if_neg hend, if_neg hend, ih]

theorem matchesAt_eq (marker : Bytes) (i : ℕ) (h : i + marker.length ≤ cdata.length) :
    matchesAt cdata marker i = some (marker.isPrefixOf (cdata.drop i)) := by
  induction marker generalizing i with
  | nil => rfl
  | cons ch marker ih =>
    rw [List.length_cons] at h
    have hi : i < cdata.length := by omega
    rw [matchesAt, List.getElem?_eq_getElem hi, List.drop_eq_getElem_cons hi, List.isPrefixOf]
    by_cases hch : cdata[i] = ch
    · simp [hch, ih (i + 1) (by omega)]
    · simp [hch, Ne.symm hch]

namespace CdataLoop

/-- Between two rounds: the pending run stands before `i`, and `rest` bytes stand behind it. -/
structure Between (cdata : Bytes) (s : CdataLoop) : Prop where
  rest_eq : s.i + s.rest = cdata.length
  run_eq : s.first + s.len = s.i

variable {s : CdataLoop}

def pending (cdata : Bytes) (s : CdataLoop) : Bytes := (cdata.drop s.first).take s.len

theorem atMarker_eq (h : s.Between cdata) (marker : Bytes) :
    s.atMarker marker cdata = some (marker.isPrefixOf (cdata.drop s.i)) := by
  have hrest := h.rest_eq
  rw [atMarker]
  split_ifs with hlen
  · exact matchesAt_eq marker s.i (by omega)
  · have hshort : ¬marker <+: cdata.drop s.i := by
      intro hp
      have := hp.length_le
      rw [List.length_drop] at this
      omega
    rw [Bool.eq_false_iff.mpr fun h => hshort (List.isPrefixOf_iff_prefix.mp h)]

theorem putRun_eq (h : s.Between cdata) (hfirst : s.first < cdata.length) :
    s.putRun transcoder cdata =
      some { s with out := s.out ++ (CdataPiece.run (s.pending cdata)).write transcoder } := by
  have hrest := h.rest_eq
  have hrun := h.run_eq
  have hlen : ((cdata.drop s.first).take s.len).length = s.len := by
    rw [List.length_take, List.length_drop]
    omega
  have happend := appendTranscodedPointer_append transcoder ((cdata.drop s.first).take s.len)
    ((cdata.drop s.first).drop s.len)
  rw [List.take_append_drop, hlen] at happend
  rw [putRun, if_pos ⟨hfirst, by omega⟩, CdataPiece.write, pending, hlen, happend]

theorem finish_eq (h : s.Between cdata) (hi : s.i = cdata.length) :
    s.finish transcoder cdata =
      some (s.out ++ (CdataPiece.run (s.pending cdata)).write transcoder ++ cdataEnd) := by
  have hrun := h.run_eq
  rw [finish]
  by_cases hlen : s.len = 0
  · have hnone : (CdataPiece.run (s.pending cdata)).write transcoder = [] := by
      rw [pending, hlen, List.take_zero, CdataPiece.write]
      cases transcoder with
      | none => rfl
      | some t =>
        rw [appendTranscodedPointer, List.length_nil, Transcoder.fromUtf8Pointer,
          Transcoder.fromUtf8Symbol_zero]
    simp [hlen, hnone]
  · rw [if_pos hlen, putRun_eq h (by omega)]
    rfl

theorem pending_succ (h : s.Between cdata) (hi : s.i < cdata.length) :
    ({ s with i := s.i + 1, rest := s.rest - 1, len := s.len + 1 } : CdataLoop).pending cdata =
      s.pending cdata ++ [cdata[s.i]] := by
  have hrun := h.run_eq
  have hget : (cdata.drop s.first)[s.len]? = some cdata[s.i] := by
    rw [List.getElem?_drop, hrun, List.getElem?_eq_getElem hi]
  rw [pending, pending, List.take_add_one, hget]
  rfl

theorem passMarker_eq (h : s.Between cdata) {left right : Bytes} (hne : left ++ right ≠ [])
    (hmarker : left ++ right <+: cdata.drop s.i) :
    ∃ s', s.passMarker transcoder cdata left right = some s' ∧
      let next := { s' with i := s'.i + 1, rest := s'.rest - 1 }
      next.Between cdata ∧ next.rest < s.rest ∧ next.pending cdata = [] ∧
      next.out = s.out ++ [CdataPiece.run (s.pending cdata), .marker left right].flatMap
        (CdataPiece.write transcoder) ∧
      cdata.drop next.i = (cdata.drop (s.i + 1)).drop ((left ++ right).length - 1) := by
  have hrest := h.rest_eq
  have hrun := h.run_eq
  have hpos := List.length_pos_iff.mpr hne
  have hle := hmarker.length_le
  rw [List.length_drop] at hle
  refine ⟨_, by rw [passMarker, putRun_eq h (by omega)]; rfl, ⟨?_, ?_⟩, ?_, ?_, ?_, ?_⟩
  · show s.i + (left ++ right).length - 1 + 1 + (s.rest - ((left ++ right).length - 1) - 1) =
      cdata.length
    omega
  · show s.i + (left ++ right).length + 0 = s.i + (left ++ right).length - 1 + 1
    omega
  · show s.rest - ((left ++ right).length - 1) - 1 < s.rest
    omega
  · rw [pending]
    exact List.take_zero
  · simp only [List.flatMap_cons, List.flatMap_nil, CdataPiece.write, List.append_assoc,
      List.append_nil]
  · show cdata.drop (s.i + (left ++ right).length - 1 + 1) = _
    rw [List.drop_drop]
    congr 1
    omega

theorem loop_eq (fuel : ℕ) (h : s.Between cdata) (hfuel : s.rest ≤ fuel) :
    (loop transcoder cdata fuel s).bind (finish transcoder cdata) =
      some (s.out ++ (cdataPieces 0 (s.pending cdata) (cdata.drop s.i)).flatMap
        (CdataPiece.write transcoder) ++ cdataEnd) := by
  induction fuel generalizing s with
  | zero =>
    have hrest := h.rest_eq
    have hi : s.i = cdata.length := by omega
    rw [loop, if_pos hi, Option.bind_some, finish_eq h hi, List.drop_of_length_le hi.ge,
      cdataPieces, List.flatMap_singleton]
  | succ fuel ih =>
    have hrest := h.rest_eq
    by_cases hi : s.i = cdata.length
    · rw [loop, if_pos hi, Option.bind_some, finish_eq h hi, List.drop_of_length_le hi.ge,
        cdataPieces, List.flatMap_singleton]
    · have hlt : s.i < cdata.length := by omega
      have hdrop := List.drop_eq_getElem_cons hlt
      -- both markers are split in the same way, `]]` `>` and `<![` `CDATA[`
      have hmarker : ∀ {left right : Bytes}, left ++ right ≠ [] → left ++ right <+: cdata.drop s.i →
          ((s.passMarker transcoder cdata left right).bind fun s =>
            loop transcoder cdata fuel { s with i := s.i + 1, rest := s.rest - 1 }).bind
              (finish transcoder cdata) =
          some (s.out ++ (CdataPiece.run (s.pending cdata) :: .marker left right ::
            cdataPieces ((left ++ right).length - 1) [] (cdata.drop (s.i + 1))).flatMap
              (CdataPiece.write transcoder) ++ cdataEnd) := by
        intro left right hne hprefix
        obtain ⟨s', hpass, hbetween, hless, hpending, hout, hnext⟩ := passMarker_eq h hne hprefix
        rw [hpass, Option.bind_some, ih hbetween (by omega), hpending, hout, hnext,
          ← cdataPieces_skip]
        simp only [List.flatMap_cons, List.flatMap_nil, List.append_assoc, List.append_nil]
      rw [loop, if_neg hi, body, atMarker_eq h, atMarker_eq h, hdrop, cdataPieces]
      simp only [Option.bind_eq_bind, Option.bind_some]
      split_ifs with hbegin hend
      · rw [← hdrop] at hbegin
        exact hmarker (by decide) (List.isPrefixOf_iff_prefix.mp hbegin)
      · rw [← hdrop] at hend
        exact hmarker (by decide) (List.isPrefixOf_iff_prefix.mp hend)
      · have hrun := h.run_eq
        have hbetween :
            ({ s with i := s.i + 1, rest := s.rest - 1, len := s.len + 1 } : CdataLoop).Between
              cdata := by
          constructor
          · show s.i + 1 + (s.rest - 1) = cdata.length
            omega
          · show s.first + (s.len + 1) = s.i + 1
            omega
        have hless : s.rest - 1 ≤ fuel := by omega
        rw [Option.bind_some, ih hbetween hless, pending_succ h hlt]

theorem putCdata_eq (transcoder : Option Transcoder) (cdata : Bytes) :
    putCdata transcoder cdata =
      some (cdataBegin ++ (cdataPieces 0 [] cdata).flatMap (CdataPiece.write transcoder) ++
        cdataEnd) := by
  have hstart : (⟨0, cdata.length, 0, 0, cdataBegin⟩ : CdataLoop).Between cdata :=
    ⟨Nat.zero_add _, rfl⟩
  exact loop_eq cdata.length hstart le_rfl

theorem putCdata_none (cdata : Bytes) : putCdata none cdata = some (Nkit.putCdata cdata) := by
  rw [putCdata_eq, Nkit.putCdata, putCdataLoop_eq]

/-- The text is cut into sections, none of which has the end of a section in it. -/
theorem putCdata_sections (s : Bytes) :
    ∃ contents : List Bytes, putCdata none s =
      some (contents.flatMap fun c => ascii "<![CDATA[" ++ c ++ ascii "]]>") ∧
      (∀ c ∈ contents, ¬ascii "]]>" <:+: c) ∧ contents.flatten = s := by
  obtain ⟨contents, hout, hnone, htext⟩ :=
    exists_cdataSections s.length [] s le_rfl (runOpen_of_not_mem List.not_mem_nil s)
  rw [putCdata_none, Nkit.putCdata, hout]
  exact ⟨contents, rfl, hnone, htext⟩

example : putCdata none (ascii "a]]>b") = some (ascii "<![CDATA[a]]]]><![CDATA[>b]]>") := by decide

end CdataLoop
end
end Nkit
