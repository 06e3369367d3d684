import Nkit.Base.Spans
import Nkit.Path.DynamicPath

/-! What `MakePath` takes, as a grammar.  A place is a state of the loop, with what the state
forgets: whether an argument stands in brackets, and that a name has just ended. -/

namespace Nkit

inductive PathPlace where
  | key | keyAfterBracket | bracket | named | closed | keyParam | indexParam
deriving DecidableEq, Repr

namespace PathPlace

def state : PathPlace → PathState
  | key | named => .dot
  | keyAfterBracket => .dotAfterBracketClose
  | bracket => .bracketOpen
  | closed => .bracketClose
  | keyParam | indexParam => .param

def isOpen : PathPlace → Bool
  | key | keyAfterBracket | bracket | indexParam => true
  | named | closed | keyParam => false

end PathPlace

/-- A name, as `FetchName` cuts it out. -/
structure IsName (delimiter : UInt8) (name : Bytes) : Prop where
  ne : name ≠ []
  chars : ∀ c ∈ name, isKeyChar delimiter c = false
  head : name.head? ≠ some 37

structure IsDigits (digits : Bytes) : Prop where
  ne : digits ≠ []
  digits : ∀ c ∈ digits, isDigit c = true

/-- The text and the arguments that are taken from a place on, with the items they give; the flag
says whether anything of it is flawed. -/
inductive Takes (delimiter : UInt8) :
    PathPlace → Bytes → List PathItem → List PathItem → Bool → Prop where
  | stop (p : PathPlace) (params : List PathItem) :
      Takes delimiter p [] params [] (p.isOpen || !params.isEmpty)
  | name {name text : Bytes} {params items : List PathItem} {flawed : Bool}
      (hname : IsName delimiter name)
      (hrest : Takes delimiter .named text params items flawed) :
      Takes delimiter .key (name ++ text) params (.key name :: items) flawed
  | keyParam {p : PathPlace} {a : PathItem} {text : Bytes} {params items : List PathItem}
      {flawed : Bool}
      (hp : p = .key ∨ p = .keyAfterBracket) (ha : a.isKey = true)
      (hrest : Takes delimiter .keyParam text params items flawed) :
      Takes delimiter p (37 :: text) (a :: params) (a :: items) flawed
  | emptyName {text : Bytes} {params items : List PathItem} {flawed : Bool}
      (hrest : Takes delimiter .key text params items flawed) :
      Takes delimiter .keyAfterBracket (delimiter :: text) params items true
  | index {digits text : Bytes} {params items : List PathItem} {flawed : Bool}
      (hdigits : IsDigits digits)
      (hrest : Takes delimiter .closed text params items flawed) :
      Takes delimiter .bracket (digits ++ 93 :: text) params
        (.index (digitsValue digits % 2 ^ 64) :: items)
        (flawed || decide (2 ^ 64 ≤ digitsValue digits))
  | indexParam {a : PathItem} {text : Bytes} {params items : List PathItem} {flawed : Bool}
      (ha : a.isIndex = true)
      (hrest : Takes delimiter .indexParam text params items flawed) :
      Takes delimiter .bracket (37 :: text) (a :: params) (a :: items) flawed
  | dot {p : PathPlace} {text : Bytes} {params items : List PathItem} {flawed : Bool}
      (hp : p = .named ∨ p = .keyParam ∨ p = .indexParam)
        (hrest : Takes delimiter .key text params items flawed) :
      Takes delimiter p (delimiter :: text) params items (flawed || p == .indexParam)
  | dotAfterBracket {text : Bytes} {params items : List PathItem} {flawed : Bool}
      (hrest : Takes delimiter .keyAfterBracket text params items flawed) :
      Takes delimiter .closed (delimiter :: text) params items flawed
  | openBracket {p : PathPlace} {text : Bytes} {params items : List PathItem} {flawed : Bool}
      (hp : p = .named ∨ p = .closed ∨ p = .keyParam ∨ p = .indexParam)
      (hrest : Takes delimiter .bracket text params items flawed) :
      Takes delimiter p (91 :: text) params items (flawed || p == .indexParam)
  | closeBracket {p : PathPlace} {text : Bytes} {params items : List PathItem} {flawed : Bool}
      (hp : p = .keyParam ∨ p = .indexParam)
        (hrest : Takes delimiter .closed text params items flawed) :
      Takes delimiter p (93 :: text) params items (flawed || p == .keyParam)
  | percent {p p' : PathPlace} {text : Bytes} {params items : List PathItem} {flawed : Bool}
      (hp : p = .closed ∨ p = .keyParam ∨ p = .indexParam) (hp' : p'.state = .param)
      (hrest : Takes delimiter p' text params items flawed) :
      Takes delimiter p (37 :: text) params items true

/-- A whole text. -/
inductive TakesPath (delimiter : UInt8) : Bytes → List PathItem → List PathItem → Bool → Prop where
  | empty (params : List PathItem) : TakesPath delimiter [] params [] (!params.isEmpty)
  | lone (params : List PathItem) : TakesPath delimiter [delimiter] params [] (!params.isEmpty)
  | delimiter {text : Bytes} {params items : List PathItem} {flawed : Bool} (hne : text ≠ [])
      (h : Takes delimiter .key text params items flawed) : TakesPath delimiter (delimiter :: text)
        params items flawed
  | bracket {text : Bytes} {params items : List PathItem} {flawed : Bool} (hne : text ≠ [])
      (h : Takes delimiter .bracket text params items flawed) :
        TakesPath delimiter (91 :: text) params items flawed
  | plain {text : Bytes} {params items : List PathItem} {flawed : Bool} (hne : text ≠ [])
      (hhead : text.head? ≠ some delimiter ∧ text.head? ≠ some 91)
      (h : Takes delimiter .key text params items flawed) : TakesPath delimiter text params items
        flawed

/-- The delimiters that are no part of the syntax. -/
structure IsDelimiter (delimiter : UInt8) : Prop where
  ne_open : delimiter ≠ 91
  ne_close : delimiter ≠ 93
  ne_percent : delimiter ≠ 37
  not_digit : isDigit delimiter = false

def ClearOf (delimiter : UInt8) (text : Bytes) : Prop := delimiter ∈ text → IsDelimiter delimiter

section
variable {delimiter : UInt8} {path : Bytes} {s s' : Parsing} {text : Bytes}
  {params items : List PathItem} {p : PathPlace} {flawed : Bool} {fuel : ℕ} {c : UInt8}

theorem IsDelimiter.clearOf (hd : IsDelimiter delimiter) (text : Bytes) :
    ClearOf delimiter text := fun _ => hd

theorem ClearOf.tail {u : Bytes} (h : ClearOf delimiter (u ++ text)) : ClearOf delimiter text :=
  fun hmem => h (List.mem_append_right u hmem)

theorem ClearOf.rest (h : ClearOf delimiter (c :: text)) : ClearOf delimiter text :=
  fun hmem => h (List.mem_cons_of_mem c hmem)

theorem ClearOf.ne (h : ClearOf delimiter (c :: text))
    (hc : c = 91 ∨ c = 93 ∨ c = 37 ∨ isDigit c = true) : c ≠ delimiter := by
  rintro rfl
  have hd := h List.mem_cons_self
  rcases hc with hc | hc | hc | hc
  · exact hd.ne_open hc
  · exact hd.ne_close hc
  · exact hd.ne_percent hc
  · exact Bool.false_ne_true (hd.not_digit.symm.trans hc)

theorem fetchIndex_eq (digits : Bytes) : fetchIndex digits = digitsValue digits % 2 ^ 64 := by
  have hfold : ∀ n, digits.foldl (fun index c => (index * 10 + (c.toNat - 48)) % 2 ^ 64)
    (n % 2 ^ 64) =
      digits.foldl (fun n c => n * 10 + (c.toNat - 48)) n % 2 ^ 64 := by
    induction digits with
    | nil => exact fun n => rfl
    | cons c digits ih =>
      intro n
      rw [List.foldl_cons, List.foldl_cons, ← ih, Nat.add_mod, Nat.mod_mul_mod, ← Nat.add_mod]
  exact hfold 0

theorem updateState_cases {state : PathState} {rest : Bytes}
    (h : updateState delimiter ⟨state, rest, items, params⟩ = some s') :
    ∃ text,
      (rest = delimiter :: text ∧
        s' = ⟨if state = .bracketClose then .dotAfterBracketClose else .dot, text, items, params⟩) ∨
      (rest = 91 :: text ∧ state ≠ .dotAfterBracketClose ∧
        s' = ⟨.bracketOpen, text, items, params⟩) ∨
      (rest = 93 :: text ∧ (state = .bracketOpen ∨ state = .param) ∧
        s' = ⟨.bracketClose, text, items, params⟩) ∨
      (rest = 37 :: text ∧ s' = ⟨.param, text, items, params⟩) := by
  cases rest with
  | nil => cases h
  | cons c rest =>
    refine ⟨rest, ?_⟩
    simp only [updateState] at h
    by_cases h1 : c = delimiter
    · rw [if_pos h1] at h
      exact .inl ⟨h1 ▸ rfl, (Option.some.inj h).symm⟩
    rw [if_neg h1] at h
    by_cases h2 : c = 91
    · rw [if_pos h2] at h
      split_ifs at h with hstate
      exact .inr (.inl ⟨h2 ▸ rfl, hstate, (Option.some.inj h).symm⟩)
    rw [if_neg h2] at h
    by_cases h3 : c = 93
    · rw [if_pos h3] at h
      split_ifs at h with hstate
      exact .inr
        (.inr (.inl ⟨h3 ▸ rfl, by_contra fun hno => hstate (not_or.mp hno),
          (Option.some.inj h).symm⟩))
    rw [if_neg h3] at h
    split_ifs at h with h4
    exact .inr (.inr (.inr ⟨h4 ▸ rfl, (Option.some.inj h).symm⟩))

theorem updateState_delimiter (hrest : s.rest = delimiter :: text) : updateState delimiter s =
    some { s with
      rest := text, state := if s.state = .bracketClose then .dotAfterBracketClose else .dot } := by
  simp [updateState, hrest]

theorem updateState_open (hd : ClearOf delimiter s.rest) (hrest : s.rest = 91 :: text)
    (h : s.state ≠ .dotAfterBracketClose) :
    updateState delimiter s = some { s with rest := text, state := .bracketOpen } := by
  rw [hrest] at hd
  simp [updateState, hrest, hd.ne, h]

theorem updateState_close (hd : ClearOf delimiter s.rest) (hrest : s.rest = 93 :: text)
    (h : s.state = .bracketOpen ∨ s.state = .param) :
    updateState delimiter s = some { s with rest := text, state := .bracketClose } := by
  have hno : ¬(s.state ≠ .bracketOpen ∧ s.state ≠ .param) := fun hno => h.elim hno.1 hno.2
  rw [hrest] at hd
  simp only [updateState, hrest, if_neg (hd.ne (.inr (.inl rfl))),
    if_neg (show (93 : UInt8) ≠ 91 by decide), if_true, if_neg hno]

theorem updateState_percent (hd : ClearOf delimiter s.rest) (hrest : s.rest = 37 :: text) :
    updateState delimiter s = some { s with rest := text, state := .param } := by
  rw [hrest] at hd
  simp [updateState, hrest, hd.ne]

theorem updateState_other (hrest : s.rest = c :: text)
    (h : c ≠ delimiter ∧ c ≠ 91 ∧ c ≠ 93 ∧ c ≠ 37) :
    updateState delimiter s = none := by
  simp [updateState, hrest, h]

theorem addPathItem_cases {fits : PathItem → Bool} {state : PathState}
    (h : addPathItem path fits ⟨state, text, items, params⟩ = .ok s') :
    ∃ a rest, params = a :: rest ∧ fits a = true ∧ s' = ⟨state, text, items ++ [a], rest⟩ := by
  cases params with
  | nil => cases h
  | cons a rest =>
    simp only [addPathItem] at h
    split_ifs at h with hfits
    exact ⟨a, rest, rfl, by simpa using hfits, (Except.ok.inj h).symm⟩

theorem argument_cases {fits : PathItem → Bool} {state : PathState} {rest : Bytes}
    {failure : PathFailure} {s₁ : Parsing}
    (hupdate : updateState delimiter ⟨state, rest, items, params⟩ = some s₁)
    (hstate : state ≠ .bracketClose)
    (h : (if s₁.state ≠ .param then .error failure else addPathItem path fits s₁) = .ok s') :
    ∃ a text left, rest = 37 :: text ∧ params = a :: left ∧ fits a = true ∧
      s' = ⟨.param, text, items ++ [a], left⟩ := by
  have hno : ∀ {other : PathState} {text : Bytes}, s₁ = ⟨other, text, items, params⟩ →
      other ≠ .param → False := by
    rintro other text rfl hother
    rw [if_pos hother] at h
    cases h
  obtain ⟨text, ⟨-, hs⟩ | ⟨-, -, hs⟩ | ⟨-, -, hs⟩ | ⟨rfl, rfl⟩⟩ := updateState_cases hupdate
  · exact (hno hs (by rw [if_neg hstate]; nofun)).elim
  · exact (hno hs nofun).elim
  · exact (hno hs nofun).elim
  · rw [if_neg (not_not.mpr rfl)] at h
    obtain ⟨a, left, hparams, ha, hs'⟩ := addPathItem_cases h
    exact ⟨a, text, left, rfl, hparams, ha, hs'⟩

theorem fetchName_append {name : Bytes} (hname : IsName delimiter name)
    (htext : ∀ c ∈ text.head?, isKeyChar delimiter c = true) :
    fetchName delimiter (name ++ text) = some (name, text) := by
  obtain ⟨c, cs, rfl⟩ := List.exists_cons_of_ne_nil hname.ne
  have hc := hname.chars c List.mem_cons_self
  have htake : (c :: cs ++ text).takeWhile (fun c => !isKeyChar delimiter c) = c :: cs :=
    Spans.takeWhile_append_stop (fun c hc => by rw [hname.chars c hc]; rfl) fun c hc => by
      rw [htext c hc]; rfl
  have hclose : c ≠ 93 := by
    rintro rfl
    simp [isKeyChar] at hc
  rw [fetchName, if_neg (by simpa using hclose), htake]
  simp

theorem fetchName_cases {rest name : Bytes} (h : fetchName delimiter text = some (name, rest)) :
    text = name ++ rest ∧ name ≠ [] ∧ (∀ c ∈ name, isKeyChar delimiter c = false) ∧
      ∀ c ∈ rest.head?, isKeyChar delimiter c = true := by
  simp only [fetchName] at h
  split_ifs at h with h1 h2
  obtain ⟨rfl, rfl⟩ := Prod.mk.inj (Option.some.inj h)
  rw [Spans.drop_takeWhile]
  exact ⟨List.takeWhile_append_dropWhile.symm, h2,
    fun c hc => by
      simpa using List.mem_takeWhile_imp hc, fun c hc => by
        simpa using Spans.head_dropWhile _ text c hc⟩

theorem takes_nil (h : Takes delimiter p [] params items flawed) : items = [] := by
  generalize htext : ([] : Bytes) = text at h
  cases h with
  | stop => rfl
  | name hname => exact absurd (List.append_eq_nil_iff.mp htext.symm).1 hname.ne
  | index hdigits => exact absurd (List.append_eq_nil_iff.mp htext.symm).1 hdigits.ne
  | _ => cases htext

def Continues (delimiter : UInt8) (p : PathPlace) (s : Parsing) (final : List PathItem) : Prop :=
  ∃ items flawed, final = s.pathItems ++ items ∧ Takes delimiter p s.rest s.params items flawed

theorem Continues.after {a : PathItem} {state : PathState} {final : List PathItem}
    (h : Continues delimiter p ⟨state, text, items ++ [a], params⟩ final) :
    ∃ others flawed, final = items ++ a :: others ∧
      Takes delimiter p text params others flawed := by
  obtain ⟨others, flawed, hfinal, htakes⟩ := h
  exact ⟨others, flawed, by rw [hfinal, List.append_assoc]; rfl, htakes⟩

section
variable {rest : Bytes} {final : List PathItem} (hd : ClearOf delimiter rest)
include hd

theorem continues_key (hstep : parseStep delimiter path ⟨PathPlace.key.state, rest, items, params⟩ =
      .ok s') (hrest : ∀ p : PathPlace, p.state = s'.state → p ≠ .named →
      Continues delimiter p s' final) :
    Continues delimiter .key ⟨PathPlace.key.state, rest, items, params⟩ final := by
  unfold parseStep at hstep
  simp only [PathPlace.state] at hstep
  split at hstep
  · rename_i hupdate
    split at hstep
    · cases hstep
    rename_i name text hname
    obtain ⟨rfl, hne, hchars, hnext⟩ := fetchName_cases hname
    have hhead : IsName delimiter name := by
      refine ⟨hne, hchars, fun hpercent => ?_⟩
      obtain ⟨cs, rfl⟩ := List.head?_eq_some_iff.mp hpercent
      rw [updateState_percent hd rfl] at hupdate
      cases hupdate
    split_ifs at hstep with hend
    · obtain rfl := Except.ok.inj hstep
      obtain ⟨items, flawed, hfinal, htakes⟩ := (hrest .key rfl nofun).after
      rw [hend] at htakes ⊢
      rw [takes_nil htakes] at hfinal
      exact ⟨[.key name], _, hfinal, .name hhead (.stop .named params)⟩
    · split at hstep
      · cases hstep
      rename_i s₁ hafter
      obtain rfl := Except.ok.inj hstep
      obtain ⟨text, ⟨rfl, rfl⟩ | ⟨rfl, -, rfl⟩ | ⟨-, hno, -⟩ | ⟨rfl, rfl⟩⟩ :=
        updateState_cases hafter
      · obtain ⟨items, flawed, hfinal, htakes⟩ := (hrest .key rfl nofun).after
        exact ⟨_, _, hfinal, .name hhead (.dot (.inl rfl) htakes)⟩
      · obtain ⟨items, flawed, hfinal, htakes⟩ := (hrest .bracket rfl nofun).after
        exact ⟨_, _, hfinal, .name hhead (.openBracket (.inl rfl) htakes)⟩
      · rcases hno with hno | hno <;> cases hno
      · -- a name does not end before a percent sign
        have hpercent := hnext 37 rfl
        simp [isKeyChar, hd.tail.ne] at hpercent
  · rename_i s₁ hupdate
    obtain ⟨a, text, params, rfl, rfl, ha, rfl⟩ := argument_cases hupdate nofun hstep
    obtain ⟨items, flawed, hfinal, htakes⟩ := (hrest .keyParam rfl nofun).after
    exact ⟨a :: items, flawed, hfinal, .keyParam (.inl rfl) ha htakes⟩

theorem continues_bracket
    (hstep : parseStep delimiter path ⟨PathPlace.bracket.state, rest, items, params⟩ = .ok s')
    (hrest : ∀ p : PathPlace, p.state = s'.state → p ≠ .named → Continues delimiter p s' final) :
    Continues delimiter .bracket ⟨PathPlace.bracket.state, rest, items, params⟩ final := by
  unfold parseStep at hstep
  simp only [PathPlace.state] at hstep
  split at hstep
  · rename_i hupdate
    split_ifs at hstep with hclose
    rw [not_not, Spans.drop_takeWhile] at hclose
    obtain ⟨text, htext⟩ := List.head?_eq_some_iff.mp hclose
    have hrest' : rest = rest.takeWhile isDigit ++ 93 :: text := by
      rw [← htext, List.takeWhile_append_dropWhile]
    have hdigits : IsDigits (rest.takeWhile isDigit) := by
      refine ⟨fun hnil => ?_, fun c hc => List.mem_takeWhile_imp hc⟩
      rw [hnil, List.nil_append] at hrest'
      rw [updateState_close hd hrest' (.inl rfl)] at hupdate
      cases hupdate
    generalize rest.takeWhile isDigit = digits at hstep hrest' hdigits htext
    subst hrest'
    rw [List.drop_left] at hstep
    rw [updateState_close hd.tail rfl (.inl rfl)] at hstep
    obtain rfl := Except.ok.inj hstep
    obtain ⟨items, flawed, hfinal, htakes⟩ := (hrest .closed rfl nofun).after
    rw [fetchIndex_eq] at hfinal
    exact ⟨_, _, hfinal, .index hdigits htakes⟩
  · rename_i s₁ hupdate
    obtain ⟨a, text, params, rfl, rfl, ha, rfl⟩ := argument_cases hupdate nofun hstep
    obtain ⟨items, flawed, hfinal, htakes⟩ := (hrest .indexParam rfl nofun).after
    exact ⟨a :: items, flawed, hfinal, .indexParam ha htakes⟩

end

theorem continues_of_step (hd : ClearOf delimiter s.rest)
    (hstep : parseStep delimiter path s = .ok s') {final : List PathItem}
    (hrest : ∀ p : PathPlace, p.state = s'.state → p ≠ .named → Continues delimiter p s' final)
    (hp : p.state = s.state) (hnamed : p ≠ .named) : Continues delimiter p s final := by
  obtain ⟨state, rest, pathItems, params⟩ := s
  obtain rfl : p.state = state := hp
  replace hd : ClearOf delimiter rest := hd
  cases p with
  | named => exact absurd rfl hnamed
  | keyAfterBracket =>
    unfold parseStep at hstep
    simp only [PathPlace.state] at hstep
    split at hstep
    · cases hstep
    rename_i s₁ hupdate
    obtain ⟨text, ⟨rfl, rfl⟩ | ⟨-, hno, -⟩ | ⟨-, hno, -⟩ | ⟨rfl, rfl⟩⟩ := updateState_cases hupdate
    · rw [if_neg (by simp)] at hstep
      obtain rfl := Except.ok.inj hstep
      obtain ⟨items, flawed, hfinal, htakes⟩ := hrest .key rfl nofun
      exact ⟨items, true, hfinal, .emptyName htakes⟩
    · exact absurd rfl hno
    · rcases hno with hno | hno <;> cases hno
    · rw [if_pos rfl] at hstep
      obtain ⟨a, params, rfl, ha, rfl⟩ := addPathItem_cases hstep
      obtain ⟨items, flawed, hfinal, htakes⟩ := (hrest .keyParam rfl nofun).after
      exact ⟨a :: items, flawed, hfinal, .keyParam (.inr rfl) ha htakes⟩
  | key => exact continues_key hd hstep hrest
  | bracket => exact continues_bracket hd hstep hrest
  | closed =>
    unfold parseStep at hstep
    simp only [PathPlace.state] at hstep
    split at hstep
    · cases hstep
    rename_i s₁ hupdate
    obtain rfl := Except.ok.inj hstep
    obtain ⟨text, ⟨rfl, rfl⟩ | ⟨rfl, -, rfl⟩ | ⟨-, hno, -⟩ | ⟨rfl, rfl⟩⟩ :=
      updateState_cases hupdate
    · obtain ⟨items, flawed, hfinal, htakes⟩ := hrest .keyAfterBracket rfl nofun
      exact ⟨items, _, hfinal, .dotAfterBracket htakes⟩
    · obtain ⟨items, flawed, hfinal, htakes⟩ := hrest .bracket rfl nofun
      exact ⟨items, _, hfinal, .openBracket (.inr (.inl rfl)) htakes⟩
    · rcases hno with hno | hno <;> cases hno
    · obtain ⟨items, flawed, hfinal, htakes⟩ := hrest .keyParam rfl nofun
      exact ⟨items, _, hfinal, .percent (.inl rfl) rfl htakes⟩
  | keyParam | indexParam =>
    unfold parseStep at hstep
    simp only [PathPlace.state] at hstep
    split at hstep
    · cases hstep
    rename_i s₁ hupdate
    obtain rfl := Except.ok.inj hstep
    obtain ⟨text, ⟨rfl, rfl⟩ | ⟨rfl, -, rfl⟩ | ⟨rfl, -, rfl⟩ | ⟨rfl, rfl⟩⟩ :=
      updateState_cases hupdate
    · obtain ⟨items, flawed, hfinal, htakes⟩ := hrest .key rfl nofun
      exact ⟨items, _, hfinal, .dot (by simp) htakes⟩
    · obtain ⟨items, flawed, hfinal, htakes⟩ := hrest .bracket rfl nofun
      exact ⟨items, _, hfinal, .openBracket (by simp) htakes⟩
    · obtain ⟨items, flawed, hfinal, htakes⟩ := hrest .closed rfl nofun
      exact ⟨items, _, hfinal, .closeBracket (by simp) htakes⟩
    · obtain ⟨items, flawed, hfinal, htakes⟩ := hrest .keyParam rfl nofun
      exact ⟨items, _, hfinal, .percent (by simp) rfl htakes⟩

theorem updateState_rest (h : updateState delimiter s = some s') : ∃ c, s.rest = c :: s'.rest := by
  obtain ⟨state, rest, items, params⟩ := s
  obtain ⟨text, ⟨rfl, rfl⟩ | ⟨rfl, -, rfl⟩ | ⟨rfl, -, rfl⟩ | ⟨rfl, rfl⟩⟩ := updateState_cases h
  all_goals exact ⟨_, rfl⟩

theorem addPathItem_rest {fits : PathItem → Bool} (h : addPathItem path fits s = .ok s') :
    s'.rest = s.rest := by
  obtain ⟨state, rest, items, params⟩ := s
  obtain ⟨a, params, -, -, rfl⟩ := addPathItem_cases h
  rfl

theorem parseStep_rest (h : parseStep delimiter path s = .ok s') :
    ∃ u, u ≠ [] ∧ s.rest = u ++ s'.rest := by
  have hone : ∀ {c : UInt8} {t : Bytes}, s.rest = c :: t → s'.rest = t → ∃ u, u ≠ [] ∧
      s.rest = u ++ s'.rest :=
    fun hrest htext => ⟨[_], List.cons_ne_nil _ _, by rw [hrest, htext]; rfl⟩
  unfold parseStep at h
  dsimp only at h
  split at h
  · split at h
    · cases h
    rename_i hupdate
    obtain ⟨c, hrest⟩ := updateState_rest hupdate
    split_ifs at h
    · exact hone hrest (addPathItem_rest h)
    · exact hone hrest (by rw [← Except.ok.inj h])
  · split at h
    · split at h
      · cases h
      rename_i name text hname
      obtain ⟨hrest, hne, -⟩ := fetchName_cases hname
      split_ifs at h
      · rw [← Except.ok.inj h]
        exact ⟨name, hne, hrest⟩
      split at h
      · cases h
      rename_i hupdate
      obtain ⟨c, hnext⟩ := updateState_rest hupdate
      obtain rfl : text = c :: _ := hnext
      rw [← Except.ok.inj h]
      exact ⟨name ++ [c], by simp, by rw [hrest]; simp⟩
    · rename_i hupdate
      obtain ⟨c, hrest⟩ := updateState_rest hupdate
      split_ifs at h
      exact hone hrest (addPathItem_rest h)
  · split at h
    · split_ifs at h
      split at h
      · cases h
      rename_i hupdate
      obtain ⟨c, hnext⟩ := updateState_rest hupdate
      rw [Spans.drop_takeWhile] at hnext
      rw [← Except.ok.inj h]
      exact ⟨s.rest.takeWhile isDigit ++ [c], by simp, by
        rw [List.append_assoc, List.singleton_append, ← hnext, List.takeWhile_append_dropWhile]⟩
    · rename_i hupdate
      obtain ⟨c, hrest⟩ := updateState_rest hupdate
      split_ifs at h
      exact hone hrest (addPathItem_rest h)
  all_goals
    split at h
    · cases h
    rename_i hupdate
    obtain ⟨c, hrest⟩ := updateState_rest hupdate
    exact hone hrest (by rw [← Except.ok.inj h])

theorem parseStep_length (h : parseStep delimiter path s = .ok s') :
    s'.rest.length < s.rest.length := by
  obtain ⟨u, hne, hrest⟩ := parseStep_rest h
  rw [hrest, List.length_append]
  exact Nat.lt_add_of_pos_left (List.length_pos_iff.mpr hne)

theorem bind_ok {A B : Type} {x : Except PathFailure A} {f : A → Except PathFailure B} {b : B}
    (h : x >>= f = .ok b) :
    ∃ a, x = .ok a ∧ f a = .ok b := by
  cases x with
  | error => cases h
  | ok a => exact ⟨a, rfl, h⟩

theorem parseLoop_rest (h : parseLoop delimiter path fuel s = .ok s')
    (hfuel : s.rest.length ≤ fuel) : s'.rest = [] := by
  induction fuel generalizing s with
  | zero =>
    rw [← Except.ok.inj h]
    exact List.eq_nil_of_length_eq_zero (Nat.le_zero.mp hfuel)
  | succ fuel ih =>
    rw [parseLoop] at h
    split_ifs at h with hend
    · rwa [← Except.ok.inj h]
    · obtain ⟨s₁, hstep, hloop⟩ := bind_ok h
      have := parseStep_length hstep
      exact ih hloop (by omega)

theorem continues_stop (hend : s.rest = []) : Continues delimiter p s s.pathItems := by
  refine ⟨[], p.isOpen || !s.params.isEmpty, (List.append_nil _).symm, ?_⟩
  rw [hend]
  exact .stop p s.params

theorem continues_of_loop (hd : ClearOf delimiter s.rest)
    (h : parseLoop delimiter path fuel s = .ok s') (hfuel : s.rest.length ≤ fuel)
    (hp : p.state = s.state) (hnamed : p ≠ .named) : Continues delimiter p s s'.pathItems := by
  induction fuel generalizing s p with
  | zero =>
    obtain rfl := Except.ok.inj h
    exact continues_stop (List.eq_nil_of_length_eq_zero (Nat.le_zero.mp hfuel))
  | succ fuel ih =>
    rw [parseLoop] at h
    split_ifs at h with hend
    · obtain rfl := Except.ok.inj h
      exact continues_stop hend
    · obtain ⟨s₁, hstep, hloop⟩ := bind_ok h
      have hlt := parseStep_length hstep
      obtain ⟨u, -, hu⟩ := parseStep_rest hstep
      have hd₁ : ClearOf delimiter s₁.rest := ClearOf.tail (hu ▸ hd)
      exact continues_of_step hd hstep (fun p hp hnamed => ih hd₁ hloop (by omega) hp hnamed) hp
        hnamed

variable (delimiter path) in
def parseFrom (fuel : ℕ) (p : PathPlace) (s : Parsing) : Except PathFailure Parsing :=
  if p = .named ∧ s.rest ≠ [] then
    match updateState delimiter s with
    | none => .error (invalidPath path s)
    | some s => parseLoop delimiter path (fuel - 1) s
  else parseLoop delimiter path fuel s

theorem parseFrom_loop (hnamed : p ≠ .named) :
    parseFrom delimiter path fuel p s = parseLoop delimiter path fuel s :=
  if_neg fun h => hnamed h.1

theorem parseFrom_step {q : PathPlace} (hnamed : p ≠ .named ∧ q ≠ .named)
    (hrest : s.rest = c :: text) (hstep : parseStep delimiter path s = .ok s') :
    parseFrom delimiter path (fuel + 1) p s = parseFrom delimiter path fuel q s' := by
  rw [parseFrom_loop hnamed.1, parseFrom_loop hnamed.2, parseLoop,
    if_neg (by rw [hrest]; exact List.cons_ne_nil c text), hstep]
  rfl

theorem parseFrom_update {q : PathPlace}
    (hp : p = .named ∨ s.state = .bracketClose ∨ s.state = .param) (hq : q ≠ .named)
    (h : updateState delimiter s = some s') :
    parseFrom delimiter path (fuel + 1) p s = parseFrom delimiter path fuel q s' := by
  have hne : s.rest ≠ [] := by
    intro hend
    simp [updateState, hend] at h
  by_cases hnamed : p = .named
  · rw [parseFrom, if_pos ⟨hnamed, hne⟩, h, parseFrom_loop hq]
    rfl
  · obtain ⟨c, text, hrest⟩ := List.exists_cons_of_ne_nil hne
    refine parseFrom_step ⟨hnamed, hq⟩ hrest ?_
    unfold parseStep
    rcases hp.resolve_left hnamed with hstate | hstate
    all_goals rw [hstate]; simp only [h]

theorem named_head (h : Takes delimiter .named text params items flawed) :
    ∀ c ∈ text.head?, c = delimiter ∨ c = 91 := by
  cases h with
  | stop => exact nofun
  | dot => rintro c ⟨⟩; exact .inl rfl
  | openBracket => rintro c ⟨⟩; exact .inr rfl
  | keyParam hp => rcases hp with hp | hp <;> cases hp
  | closeBracket hp => rcases hp with hp | hp <;> cases hp
  | percent hp => rcases hp with hp | hp | hp <;> cases hp

theorem ClearOf.digit (hd : ClearOf delimiter (c :: text)) (hc : isDigit c = true) :
    c ≠ delimiter ∧ c ≠ 91 ∧ c ≠ 93 ∧ c ≠ 37 := by
  refine ⟨hd.ne (.inr (.inr (.inr hc))), ?_, ?_, ?_⟩ <;> rintro rfl
  all_goals revert hc; decide

theorem IsName.head_ne (hname : IsName delimiter (c :: text)) :
    c ≠ delimiter ∧ c ≠ 91 ∧ c ≠ 93 ∧ c ≠ 37 := by
  have hc := hname.chars c List.mem_cons_self
  simp only [isKeyChar, Bool.or_eq_false_iff, beq_eq_false_iff_ne] at hc
  exact ⟨hc.1.2, hc.1.1.1, hc.1.1.2, fun h => hname.head (h ▸ rfl)⟩

theorem parseLoop_nil (hend : s.rest = []) : parseLoop delimiter path fuel s = .ok s := by
  cases fuel with
  | zero => rfl
  | succ fuel => rw [parseLoop, if_pos hend]

theorem parseFrom_name {name : Bytes} {before : List PathItem} (hname : IsName delimiter name)
    (htext : ∀ c ∈ text.head?, c = delimiter ∨ c = 91) :
    parseFrom delimiter path (fuel + 1) .key ⟨.dot, name ++ text, before, params⟩ =
      parseFrom delimiter path (fuel + 1) .named ⟨.dot, text, before ++ [.key name], params⟩ := by
  have hstop : ∀ c ∈ text.head?, isKeyChar delimiter c = true := by
    intro c hc
    rcases htext c hc with rfl | rfl <;> simp [isKeyChar]
  have hfetch := fetchName_append hname hstop
  obtain ⟨c, cs, rfl⟩ := List.exists_cons_of_ne_nil hname.ne
  have hother : updateState delimiter ⟨.dot, c :: cs ++ text, before, params⟩ = none :=
    updateState_other rfl hname.head_ne
  rw [parseFrom_loop (p := .key) nofun, parseLoop, if_neg (by exact List.cons_ne_nil c _)]
  unfold parseStep
  simp only [hother, hfetch]
  by_cases hend : text = []
  · rw [if_pos hend, parseFrom, if_neg fun h => h.2 hend, parseLoop_nil hend]
    exact parseLoop_nil hend
  · rw [if_neg hend, parseFrom, if_pos ⟨rfl, hend⟩]
    cases updateState delimiter ⟨.dot, text, before ++ [.key (c :: cs)], params⟩ <;> rfl

theorem parseStep_index {digits : Bytes} {before : List PathItem}
    (hd : ClearOf delimiter (digits ++ 93 :: text)) (hdigits : IsDigits digits) :
    parseStep delimiter path ⟨.bracketOpen, digits ++ 93 :: text, before, params⟩ =
      .ok ⟨.bracketClose, text, before ++ [.index (digitsValue digits % 2 ^ 64)], params⟩ := by
  have htake : (digits ++ 93 :: text).takeWhile isDigit = digits :=
    Spans.takeWhile_append_stop hdigits.digits (by rintro c ⟨⟩; decide)
  obtain ⟨c, cs, rfl⟩ := List.exists_cons_of_ne_nil hdigits.ne
  have hother : updateState delimiter ⟨.bracketOpen, c :: cs ++ 93 :: text, before, params⟩ =
      none :=
    updateState_other rfl (hd.digit (hdigits.digits c List.mem_cons_self))
  unfold parseStep
  simp only [hother, htake, List.drop_left, List.head?_cons, ne_eq, not_true_eq_false, if_false]
  rw [updateState_close hd.tail rfl (.inl rfl), fetchIndex_eq]

theorem parseStep_argument {a : PathItem} {before : List PathItem}
    (hd : ClearOf delimiter (37 :: text))
    (ha : p = .bracket ∧ a.isIndex = true ∨ (p = .key ∨ p = .keyAfterBracket) ∧ a.isKey = true) :
    parseStep delimiter path ⟨p.state, 37 :: text, before, a :: params⟩ =
      .ok ⟨.param, text, before ++ [a], params⟩ := by
  have hpercent : ∀ state, updateState delimiter ⟨state, 37 :: text, before, a :: params⟩ =
      some ⟨.param, text, before, a :: params⟩ := fun state => updateState_percent hd rfl
  obtain ⟨rfl, ha⟩ | ⟨rfl | rfl, ha⟩ := ha
  all_goals
    unfold parseStep
    simp only [PathPlace.state, hpercent, addPathItem, ha]
    rfl

theorem loop_of_takes (hd : ClearOf delimiter text) (h : Takes delimiter p text params items flawed)
    (before : List PathItem) (hfuel : text.length ≤ fuel) :
    ∃ state left, parseFrom delimiter path fuel p ⟨p.state, text, before, params⟩ =
      .ok ⟨state, [], before ++ items, left⟩ := by
  have hpos : ∀ {n m : ℕ}, n + 1 ≤ m → ∃ k, m = k + 1 :=
    fun h => ⟨_, (Nat.sub_add_cancel ((Nat.le_add_left 1 _).trans h)).symm⟩
  -- every rule takes at least one character, and the loop takes one in each round
  induction h generalizing fuel before with
  | stop p params =>
    rw [List.append_nil, parseFrom, if_neg fun h => h.2 rfl, parseLoop_nil rfl]
    exact ⟨_, _, rfl⟩
  | @name name text params items flawed hname hrest ih =>
    have hlength := List.length_pos_iff.mpr hname.ne
    rw [List.length_append] at hfuel
    obtain ⟨fuel, rfl⟩ : ∃ k, fuel = k + 1 := hpos (n := 0) (by omega)
    rw [PathPlace.state, parseFrom_name hname (named_head hrest)]
    have hnamed := ih hd.tail (before ++ [.key name]) (show text.length ≤ fuel + 1 by omega)
    rwa [List.append_assoc] at hnamed
  | @keyParam p a text params items flawed hp ha hrest ih =>
    obtain ⟨fuel, rfl⟩ := hpos hfuel
    have hp' : p ≠ .named := by rcases hp with rfl | rfl <;> nofun
    rw [parseFrom_step (q := .keyParam) ⟨hp', nofun⟩ rfl (parseStep_argument hd (.inr ⟨hp, ha⟩))]
    have hparam := ih hd.rest (before ++ [a]) (Nat.le_of_succ_le_succ hfuel)
    rwa [List.append_assoc] at hparam
  | emptyName hrest ih =>
    obtain ⟨fuel, rfl⟩ := hpos hfuel
    rw [parseFrom_step (p := .keyAfterBracket) (q := .key) ⟨nofun, nofun⟩ rfl]
    · exact ih hd.rest before (Nat.le_of_succ_le_succ hfuel)
    · unfold parseStep
      simp only [PathPlace.state,
        updateState_delimiter (s := ⟨.dotAfterBracketClose, delimiter :: _, before, _⟩) rfl]
      rfl
  | @index digits text params items flawed hdigits hrest ih =>
    have hlength := List.length_pos_iff.mpr hdigits.ne
    rw [List.length_append, List.length_cons] at hfuel
    obtain ⟨fuel, rfl⟩ : ∃ k, fuel = k + 1 := hpos (n := 0) (by omega)
    obtain ⟨c, cs, rfl⟩ := List.exists_cons_of_ne_nil hdigits.ne
    rw [PathPlace.state,
      parseFrom_step (p := .bracket) (q := .closed) ⟨nofun, nofun⟩ rfl (parseStep_index hd hdigits)]
    have hclosed := ih hd.tail.rest (before ++ [.index (digitsValue (c :: cs) % 2 ^ 64)])
      (show text.length ≤ fuel by omega)
    rwa [List.append_assoc] at hclosed
  | @indexParam a text params items flawed ha hrest ih =>
    obtain ⟨fuel, rfl⟩ := hpos hfuel
    rw [parseFrom_step (p := .bracket) (q := .indexParam) ⟨nofun, nofun⟩ rfl
      (parseStep_argument hd (.inl ⟨rfl, ha⟩))]
    have hparam := ih hd.rest (before ++ [a]) (Nat.le_of_succ_le_succ hfuel)
    rwa [List.append_assoc] at hparam
  | @dot p text params items flawed hp hrest ih =>
    obtain ⟨fuel, rfl⟩ := hpos hfuel
    rw [parseFrom_update (q := .key) (by rcases hp with rfl | rfl | rfl <;> simp [PathPlace.state])
      nofun (updateState_delimiter rfl)]
    rcases hp with rfl | rfl | rfl
    all_goals exact ih hd.rest before (Nat.le_of_succ_le_succ hfuel)
  | dotAfterBracket hrest ih =>
    obtain ⟨fuel, rfl⟩ := hpos hfuel
    rw [parseFrom_update (p := .closed) (q := .keyAfterBracket) (.inr (.inl rfl)) nofun
      (updateState_delimiter rfl)]
    exact ih hd.rest before (Nat.le_of_succ_le_succ hfuel)
  | @openBracket p text params items flawed hp hrest ih =>
    obtain ⟨fuel, rfl⟩ := hpos hfuel
    rw [parseFrom_update (q := .bracket)
      (by rcases hp with rfl | rfl | rfl | rfl <;> simp [PathPlace.state]) nofun
        (updateState_open hd rfl (by rcases hp with rfl | rfl | rfl | rfl <;> nofun))]
    exact ih hd.rest before (Nat.le_of_succ_le_succ hfuel)
  | @closeBracket p text params items flawed hp hrest ih =>
    obtain ⟨fuel, rfl⟩ := hpos hfuel
    rw [parseFrom_update (q := .closed) (by rcases hp with rfl | rfl <;> simp [PathPlace.state])
      nofun (updateState_close hd rfl (by rcases hp with rfl | rfl <;> exact .inr rfl))]
    exact ih hd.rest before (Nat.le_of_succ_le_succ hfuel)
  | @percent p q text params items flawed hp hq hrest ih =>
    obtain ⟨fuel, rfl⟩ := hpos hfuel
    rw [parseFrom_update (q := q) (by rcases hp with rfl | rfl | rfl <;> simp [PathPlace.state])
      (by rintro rfl; cases hq) (updateState_percent hd rfl), ← hq]
    exact ih hd.rest before (Nat.le_of_succ_le_succ hfuel)

/-- The place where the loop of `MakePath` starts, and the text it starts with. -/
theorem makePath_of_takes (hd : ClearOf delimiter text) {c : UInt8} {rest : Bytes}
    (hpath : path = c :: rest)
    (hstart : (c = delimiter ∧ p = .key ∧ text = rest) ∨
      (c ≠ delimiter ∧ c = 91 ∧ p = .bracket ∧ text = rest) ∨
      (c ≠ delimiter ∧ c ≠ 91 ∧ p = .key ∧ text = path)) (hne : text ≠ []) :
    makePath delimiter path params = .ok items ↔
      ∃ flawed, Takes delimiter p text params items flawed := by
  have hmake : makePath delimiter path params = (do
      let s ← parseLoop delimiter path path.length ⟨p.state, text, [], params⟩
      if s.rest ≠ [] ∧ (s.state = .bracketOpen ∨ s.state = .dot) then .error (invalidPath path s)
      else .ok s.pathItems) := by
    subst hpath
    obtain ⟨h1, rfl, rfl⟩ | ⟨h1, h2, rfl, rfl⟩ | ⟨h1, h2, rfl, rfl⟩ := hstart
    · simp only [makePath, if_pos h1, if_neg hne]
      rfl
    · simp only [makePath, if_neg h1, if_pos h2, if_neg hne]
      rfl
    · simp only [makePath, if_neg h1, if_neg h2, if_neg hne]
      rfl
  have hnamed : p ≠ .named := by
    obtain ⟨-, rfl, -⟩ | ⟨-, -, rfl, -⟩ | ⟨-, -, rfl, -⟩ := hstart <;> nofun
  have hlength : text.length ≤ path.length := by
    subst hpath
    obtain ⟨-, -, rfl⟩ | ⟨-, -, -, rfl⟩ | ⟨-, -, -, rfl⟩ := hstart
    · exact Nat.le_succ _
    · exact Nat.le_succ _
    · exact le_rfl
  rw [hmake]
  constructor
  · intro h
    obtain ⟨s, hloop, hend⟩ := bind_ok h
    rw [parseLoop_rest hloop hlength, if_neg fun h => h.1 rfl] at hend
    obtain ⟨items', flawed, hitems, htakes⟩ := continues_of_loop hd hloop hlength rfl hnamed
    rw [← Except.ok.inj hend, hitems]
    exact ⟨flawed, htakes⟩
  · rintro ⟨flawed, htakes⟩
    obtain ⟨state, left, hloop⟩ : ∃ state left, parseFrom delimiter path path.length p
      ⟨p.state, text, [], params⟩ =
        .ok ⟨state, [], [] ++ items, left⟩ := loop_of_takes hd htakes [] hlength
    rw [parseFrom_loop hnamed] at hloop
    rw [hloop]
    rfl

theorem takesPath_delimiter_iff (hd : IsDelimiter delimiter) (hne : text ≠ []) :
    TakesPath delimiter (delimiter :: text) params items flawed ↔
      Takes delimiter .key text params items flawed := by
  refine ⟨fun h => ?_, .delimiter hne⟩
  generalize hpath : delimiter :: text = path at h
  cases h with
  | empty => cases hpath
  | lone => exact absurd (List.cons.inj hpath).2 hne
  | delimiter _ h => exact (List.cons.inj hpath).2 ▸ h
  | bracket => exact absurd (List.cons.inj hpath).1 hd.ne_open
  | plain _ hhead => exact absurd (hpath ▸ rfl) hhead.1

theorem takesPath_bracket_iff (hd : IsDelimiter delimiter) :
    TakesPath delimiter (91 :: text) params items flawed ↔
      text ≠ [] ∧ Takes delimiter .bracket text params items flawed := by
  refine ⟨fun h => ?_, fun h => .bracket h.1 h.2⟩
  generalize hpath : 91 :: text = path at h
  cases h with
  | empty => cases hpath
  | lone => exact absurd (List.cons.inj hpath).1.symm hd.ne_open
  | delimiter => exact absurd (List.cons.inj hpath).1.symm hd.ne_open
  | bracket hne h => exact (List.cons.inj hpath).2 ▸ ⟨hne, h⟩
  | plain _ hhead => exact absurd (hpath ▸ rfl) hhead.2

theorem takesPath_plain_iff (hhead : c ≠ delimiter ∧ c ≠ 91) :
    TakesPath delimiter (c :: text) params items flawed ↔
      Takes delimiter .key (c :: text) params items flawed := by
  refine ⟨fun h => ?_,
    .plain (List.cons_ne_nil c text) ⟨fun h => hhead.1 (Option.some.inj h),
      fun h => hhead.2 (Option.some.inj h)⟩⟩
  generalize hpath : c :: text = path at h
  cases h with
  | empty => cases hpath
  | lone => exact absurd (List.cons.inj hpath).1 hhead.1
  | delimiter => exact absurd (List.cons.inj hpath).1 hhead.1
  | bracket => exact absurd (List.cons.inj hpath).1 hhead.2
  | plain _ _ h => exact h

/-- What `Set` takes is the grammar. -/
theorem setPath_iff (hd : IsDelimiter delimiter) (args : List PathItem) :
    setPath delimiter path args = .ok items ↔
      ∃ flawed, TakesPath delimiter path (args.filter (· ≠ .undef)) items flawed := by
  generalize hparams : args.filter (· ≠ .undef) = params
  by_cases hlone : path = [delimiter]
  · rw [setPath, if_pos hlone, hlone]
    constructor
    · intro h
      rw [← Except.ok.inj h]
      exact ⟨_, .lone params⟩
    · rintro ⟨flawed, h⟩
      cases h with
      | lone => rfl
      | delimiter hne => exact absurd rfl hne
      | bracket hne => exact absurd rfl hne
      | plain hne hhead => exact absurd rfl hhead.1
  rw [setPath, if_neg hlone, hparams]
  cases hpath : path with
  | nil =>
    constructor
    · intro h
      rw [← Except.ok.inj h]
      exact ⟨_, .empty params⟩
    · rintro ⟨flawed, h⟩
      cases h with
      | empty => rfl
      | plain hne => exact absurd rfl hne
  | cons c rest =>
    by_cases h1 : c = delimiter
    · have hne : rest ≠ [] := fun h => hlone (by rw [hpath, h1, h])
      rw [makePath_of_takes (hd.clearOf _) rfl (.inl ⟨h1, rfl, rfl⟩) hne, h1]
      exact exists_congr fun _ => (takesPath_delimiter_iff hd hne).symm
    by_cases h2 : c = 91
    · by_cases hne : rest = []
      · rw [h2, hne]
        refine ⟨fun h => ?_, fun ⟨_, h⟩ => absurd rfl ((takesPath_bracket_iff hd).mp h).1⟩
        simp [makePath, hd.ne_open.symm] at h
      · rw [makePath_of_takes (hd.clearOf _) rfl (.inr (.inl ⟨h1, h2, rfl, rfl⟩)) hne, h2]
        exact exists_congr fun _ => ((takesPath_bracket_iff hd).trans (and_iff_right hne)).symm
    · rw [makePath_of_takes (hd.clearOf _) rfl (.inr (.inr ⟨h1, h2, rfl, rfl⟩))
        (List.cons_ne_nil c rest)]
      exact exists_congr fun _ => (takesPath_plain_iff ⟨h1, h2⟩).symm

end

end Nkit
