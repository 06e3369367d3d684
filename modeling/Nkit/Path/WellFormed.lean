import Nkit.Path.Parsing

/-! Well-formed path texts, and which of the texts that `MakePath` takes are not well formed. -/

namespace Nkit

inductive PathSegment (delimiter : UInt8) where
  | name (name : Bytes) (h : IsName delimiter name)
  | keyParam
  | index (digits : Bytes) (h : IsDigits digits)
  | indexParam

def PathSegment.text {delimiter : UInt8} : PathSegment delimiter → Bytes
  | .name s _ => delimiter :: s
  | .keyParam => [delimiter, 37]
  | .index digits _ => 91 :: digits ++ [93]
  | .indexParam => [91, 37, 93]

def renderPath {delimiter : UInt8} (segments : List (PathSegment delimiter)) : Bytes :=
  segments.flatMap PathSegment.text

/-- The items of the segments: a name and a number give themselves, a percent sign takes the next
argument, which must be of its kind, and no argument is left. -/
inductive Fills {delimiter : UInt8} :
    List (PathSegment delimiter) → List PathItem → List PathItem → Prop where
  | nil : Fills [] [] []
  | name {name : Bytes} (h : IsName delimiter name) {segments : List (PathSegment delimiter)}
      {args items : List PathItem}
      (hrest : Fills segments args items) : Fills (.name name h :: segments) args
        (.key name :: items)
  | keyParam {a : PathItem} (ha : a.isKey = true) {segments : List (PathSegment delimiter)}
      {args items : List PathItem}
      (hrest : Fills segments args items) : Fills (.keyParam :: segments) (a :: args) (a :: items)
  | index {digits : Bytes} (h : IsDigits digits) {segments : List (PathSegment delimiter)}
      {args items : List PathItem}
      (hrest : Fills segments args items) : Fills (.index digits h :: segments) args
        (.index (digitsValue digits) :: items)
  | indexParam {a : PathItem} (ha : a.isIndex = true) {segments : List (PathSegment delimiter)}
      {args items : List PathItem}
      (hrest : Fills segments args items) : Fills (.indexParam :: segments) (a :: args) (a :: items)

/-- A text with its arguments and items: nothing or a lone delimiter, or segments, where the first
delimiter may be missing. -/
def WellFormedPath (delimiter : UInt8) (text : Bytes) (args items : List PathItem) : Prop :=
  (text = [] ∨ text = [delimiter]) ∧ args = [] ∧ items = [] ∨
    ∃ segments : List (PathSegment delimiter), segments ≠ [] ∧ Fills segments args items ∧
      (renderPath segments = text ∨ renderPath segments = delimiter :: text)

section
variable {delimiter : UInt8} {path text : Bytes} {args params items : List PathItem} {p : PathPlace}
  {flawed : Bool} {segments : List (PathSegment delimiter)}

def Layout (p : PathPlace) (text : Bytes) (segments : List (PathSegment delimiter)) : Prop :=
  match p with
  | .key | .keyAfterBracket => renderPath segments = delimiter :: text
  | .bracket => renderPath segments = 91 :: text
  | .named | .closed | .keyParam => renderPath segments = text
  | .indexParam => 93 :: renderPath segments = text

theorem layout_of_takes (h : Takes delimiter p text params items flawed)
    (hflawed : flawed = false) :
    ∃ segments : List (PathSegment delimiter), Fills segments params items ∧
      Layout p text segments := by
  induction h with
  | stop p params =>
    rw [Bool.or_eq_false_iff, Bool.not_eq_false', List.isEmpty_iff] at hflawed
    obtain ⟨hp, rfl⟩ := hflawed
    refine ⟨[], .nil, ?_⟩
    cases p with
    | named | closed | keyParam => rfl
    | _ => cases hp
  | @name name text params items flawed hname _ ih =>
    obtain ⟨segments, hfills, hlayout⟩ := ih hflawed
    exact ⟨.name name hname :: segments, .name hname hfills,
      congrArg (fun text => delimiter :: (name ++ text)) hlayout⟩
  | keyParam hp ha _ ih =>
    obtain ⟨segments, hfills, hlayout⟩ := ih hflawed
    refine ⟨.keyParam :: segments, .keyParam ha hfills, ?_⟩
    rcases hp with rfl | rfl
    all_goals exact congrArg (delimiter :: 37 :: ·) hlayout
  | emptyName => cases hflawed
  | @index digits text params items flawed hdigits _ ih =>
    rw [Bool.or_eq_false_iff, decide_eq_false_iff_not, not_le] at hflawed
    obtain ⟨segments, hfills, hlayout⟩ := ih hflawed.1
    refine ⟨.index digits hdigits :: segments, ?_, ?_⟩
    · -- without the flaw the index is not wrapped
      rw [Nat.mod_eq_of_lt hflawed.2]
      exact .index hdigits hfills
    · change 91 :: digits ++ [93] ++ renderPath segments = _
      rw [show renderPath segments = text from hlayout]
      simp
  | indexParam ha _ ih =>
    obtain ⟨segments, hfills, hlayout⟩ := ih hflawed
    exact ⟨.indexParam :: segments, .indexParam ha hfills, congrArg (91 :: 37 :: ·) hlayout⟩
  | dot hp _ ih =>
    rw [Bool.or_eq_false_iff] at hflawed
    obtain ⟨segments, hfills, hlayout⟩ := ih hflawed.1
    refine ⟨segments, hfills, ?_⟩
    rcases hp with rfl | rfl | rfl
    · exact hlayout
    · exact hlayout
    · cases hflawed.2
  | dotAfterBracket _ ih => exact ih hflawed
  | openBracket hp _ ih =>
    rw [Bool.or_eq_false_iff] at hflawed
    obtain ⟨segments, hfills, hlayout⟩ := ih hflawed.1
    refine ⟨segments, hfills, ?_⟩
    rcases hp with rfl | rfl | rfl | rfl
    · exact hlayout
    · exact hlayout
    · exact hlayout
    · cases hflawed.2
  | closeBracket hp _ ih =>
    rw [Bool.or_eq_false_iff] at hflawed
    obtain ⟨segments, hfills, hlayout⟩ := ih hflawed.1
    refine ⟨segments, hfills, ?_⟩
    rcases hp with rfl | rfl
    · cases hflawed.2
    · exact congrArg (93 :: ·) hlayout
  | percent => cases hflawed

theorem renderPath_head : ∀ c ∈ (renderPath segments).head?, c = delimiter ∨ c = 91 := by
  cases segments with
  | nil => exact nofun
  | cons segment segments =>
    cases segment
    all_goals rintro c ⟨⟩; simp

theorem renderPath_key (hd : IsDelimiter delimiter) (h : renderPath segments = delimiter :: text) :
    ∃ others, (∃ name hname, segments = .name name hname :: others ∧
      text = name ++ renderPath others) ∨
      (segments = .keyParam :: others ∧ text = 37 :: renderPath others) := by
  cases segments with
  | nil => cases h
  | cons segment others =>
    refine ⟨others, ?_⟩
    cases segment with
    | name name hname => exact .inl ⟨name, hname, rfl, (List.cons.inj h).2.symm⟩
    | keyParam => exact .inr ⟨rfl, (List.cons.inj h).2.symm⟩
    | index | indexParam => exact absurd (List.cons.inj h).1.symm hd.ne_open

theorem renderPath_bracket (hd : IsDelimiter delimiter) (h : renderPath segments = 91 :: text) :
    ∃ others, (∃ digits hdigits, segments = .index digits hdigits :: others ∧
      text = digits ++ 93 :: renderPath others) ∨
      (segments = .indexParam :: others ∧ text = 37 :: 93 :: renderPath others) := by
  cases segments with
  | nil => cases h
  | cons segment others =>
    refine ⟨others, ?_⟩
    cases segment with
    | name | keyParam => exact absurd (List.cons.inj h).1 hd.ne_open
    | index digits hdigits =>
      refine .inl ⟨digits, hdigits, rfl, ?_⟩
      have htext : digits ++ [93] ++ renderPath others = text := (List.cons.inj h).2
      rw [← htext, List.append_assoc]
      rfl
    | indexParam => exact .inr ⟨rfl, (List.cons.inj h).2.symm⟩

theorem IsName.inj {name name' rest rest' : Bytes} (hname : IsName delimiter name)
    (hname' : IsName delimiter name') (hrest : ∀ c ∈ rest.head?, c = delimiter ∨ c = 91)
    (hrest' : ∀ c ∈ rest'.head?, c = delimiter ∨ c = 91) (h : name ++ rest = name' ++ rest') :
    name = name' ∧ rest = rest' := by
  have hstop : ∀ {text : Bytes}, (∀ c ∈ text.head?, c = delimiter ∨ c = 91) →
      ∀ c ∈ text.head?, (!isKeyChar delimiter c) = false := by
    intro text htext c hc
    rcases htext c hc with rfl | rfl <;> simp [isKeyChar]
  exact Spans.append_inj_of_stop (fun c hc => by rw [hname.chars c hc]; rfl) (hstop hrest)
    (fun c hc => by rw [hname'.chars c hc]; rfl) (hstop hrest') h

theorem IsDigits.inj {digits digits' rest rest' : Bytes} (hdigits : IsDigits digits)
    (hdigits' : IsDigits digits') (h : digits ++ 93 :: rest = digits' ++ 93 :: rest') :
    digits = digits' ∧ rest = rest' := by
  obtain ⟨hdigits, hrest⟩ :=
    Spans.append_inj_of_stop hdigits.digits (by rintro c ⟨⟩; decide) hdigits'.digits
    (by rintro c ⟨⟩; decide) h
  exact ⟨hdigits, (List.cons.inj hrest).2⟩

theorem IsName.cons_ne {name rest : Bytes} {c : UInt8} (hname : IsName delimiter name)
    (hc : c = delimiter ∨ c = 91 ∨ c = 93 ∨ c = 37) : name ++ rest ≠ c :: text := by
  intro h
  obtain ⟨d, cs, rfl⟩ := List.exists_cons_of_ne_nil hname.ne
  obtain ⟨h1, h2, h3, h4⟩ := hname.head_ne
  obtain rfl := (List.cons.inj h).1
  rcases hc with hc | hc | hc | hc
  · exact h1 hc
  · exact h2 hc
  · exact h3 hc
  · exact h4 hc

theorem IsDigits.cons_ne {digits rest : Bytes} {c : UInt8} (hdigits : IsDigits digits)
    (hc : isDigit c = false) :
    digits ++ rest ≠ c :: text := by
  intro h
  obtain ⟨d, cs, rfl⟩ := List.exists_cons_of_ne_nil hdigits.ne
  have hd := hdigits.digits d List.mem_cons_self
  rw [(List.cons.inj h).1, hc] at hd
  cases hd

theorem unflawed_of_layout (hd : IsDelimiter delimiter)
    (h : Takes delimiter p text params items flawed) (hfills : Fills segments params items)
    (hlayout : Layout p text segments) : flawed = false := by
  -- the first byte of the text says which piece the segments begin with
  induction h generalizing segments with
  | stop p params =>
    cases p with
    | key | keyAfterBracket =>
      obtain ⟨others, ⟨name, hname, -, htext⟩ | ⟨-, htext⟩⟩ := renderPath_key hd hlayout
      · exact absurd (List.append_eq_nil_iff.mp htext.symm).1 hname.ne
      · cases htext
    | bracket =>
      obtain ⟨others, ⟨digits, hdigits, -, htext⟩ | ⟨-, htext⟩⟩ := renderPath_bracket hd hlayout
      · exact absurd (List.append_eq_nil_iff.mp htext.symm).1 hdigits.ne
      · cases htext
    | named | closed | keyParam =>
      cases hfills with
      | nil => rfl
    | indexParam => cases hlayout
  | @name name text params items flawed hname hrest ih =>
    obtain ⟨others, ⟨name', hname', rfl, htext⟩ | ⟨-, htext⟩⟩ := renderPath_key hd hlayout
    · obtain ⟨rfl, rfl⟩ := hname.inj hname' (named_head hrest) renderPath_head htext
      cases hfills with
      | name _ hfills => exact ih hfills rfl
    · exact absurd htext (hname.cons_ne (.inr (.inr (.inr rfl))))
  | @keyParam p a text params items flawed hp ha hrest ih =>
    have hkey : renderPath segments = delimiter :: 37 :: text := by
      rcases hp with rfl | rfl <;> exact hlayout
    obtain ⟨others, ⟨name', hname', rfl, htext⟩ | ⟨rfl, htext⟩⟩ := renderPath_key hd hkey
    · exact absurd htext.symm (hname'.cons_ne (.inr (.inr (.inr rfl))))
    · cases hfills with
      | keyParam _ hfills => exact ih hfills (List.cons.inj htext).2.symm
  | emptyName hrest ih =>
    obtain ⟨others, ⟨name', hname', rfl, htext⟩ | ⟨rfl, htext⟩⟩ := renderPath_key hd hlayout
    · exact absurd htext.symm (hname'.cons_ne (.inl rfl))
    · exact absurd (List.cons.inj htext).1 hd.ne_percent
  | @index digits text params items flawed hdigits hrest ih =>
    obtain ⟨others, ⟨digits', hdigits', rfl, htext⟩ | ⟨-, htext⟩⟩ := renderPath_bracket hd hlayout
    · obtain ⟨rfl, rfl⟩ := hdigits.inj hdigits' htext
      -- the grammar reads the index mod 2^64 and the layout as it is written: they agree below 2^64
      -- only
      generalize hitem : PathItem.index (digitsValue digits % 2 ^ 64) :: items = all at hfills
      cases hfills with
      | index _ hfills =>
        obtain ⟨hvalue, rfl⟩ := List.cons.inj hitem
        rw [ih hfills rfl, Bool.false_or, decide_eq_false_iff_not, not_le,
          ← PathItem.index.inj hvalue]
        exact Nat.mod_lt _ (Nat.two_pow_pos 64)
    · exact absurd htext (hdigits.cons_ne rfl)
  | @indexParam a text params items flawed ha hrest ih =>
    obtain ⟨others, ⟨digits', hdigits', rfl, htext⟩ | ⟨rfl, htext⟩⟩ := renderPath_bracket hd hlayout
    · exact absurd htext.symm (hdigits'.cons_ne rfl)
    · cases hfills with
      | indexParam _ hfills => exact ih hfills (List.cons.inj htext).2.symm
  | @dot p text params items flawed hp hrest ih =>
    rcases hp with rfl | rfl | rfl
    · rw [ih hfills hlayout]
      rfl
    · rw [ih hfills hlayout]
      rfl
    · exact absurd (List.cons.inj hlayout).1.symm hd.ne_close
  | dotAfterBracket hrest ih => exact ih hfills hlayout
  | @openBracket p text params items flawed hp hrest ih =>
    rcases hp with rfl | rfl | rfl | rfl
    · rw [ih hfills hlayout]
      rfl
    · rw [ih hfills hlayout]
      rfl
    · rw [ih hfills hlayout]
      rfl
    · exact absurd (List.cons.inj hlayout).1 (by decide)
  | @closeBracket p text params items flawed hp hrest ih =>
    rcases hp with rfl | rfl
    · have hrender : renderPath segments = 93 :: text := hlayout
      rcases renderPath_head 93 (by rw [hrender]; rfl) with hc | hc
      · exact absurd hc.symm hd.ne_close
      · cases hc
    · rw [ih hfills (List.cons.inj hlayout).2]
      rfl
  | @percent p q text params items flawed hp hq hrest ih =>
    have hno : renderPath segments ≠ 37 :: text := by
      intro hrender
      rcases renderPath_head 37 (by rw [hrender]; rfl) with hc | hc
      · exact hd.ne_percent hc.symm
      · cases hc
    rcases hp with rfl | rfl | rfl
    · exact absurd hlayout hno
    · exact absurd hlayout hno
    · exact absurd (List.cons.inj hlayout).1 (by decide)

theorem wellFormed_of_takesPath (h : TakesPath delimiter path params items flawed)
    (hflawed : flawed = false) :
    WellFormedPath delimiter path params items := by
  have hsegments : ∀ {p : PathPlace} {text : Bytes}, Takes delimiter p text params items flawed →
    p = .key ∨ p = .bracket →
      ∃ segments : List (PathSegment delimiter), segments ≠ [] ∧ Fills segments params items ∧
        Layout p text segments := by
    intro p text htakes hp
    obtain ⟨segments, hfills, hlayout⟩ := layout_of_takes htakes hflawed
    refine ⟨segments, ?_, hfills, hlayout⟩
    rintro rfl
    rcases hp with rfl | rfl <;> cases hlayout
  cases h with
  | empty | lone =>
    rw [Bool.not_eq_false', List.isEmpty_iff] at hflawed
    exact .inl ⟨by simp, hflawed, rfl⟩
  | delimiter _ h =>
    obtain ⟨segments, hne, hfills, hlayout⟩ := hsegments h (.inl rfl)
    exact .inr ⟨segments, hne, hfills, .inl hlayout⟩
  | bracket _ h =>
    obtain ⟨segments, hne, hfills, hlayout⟩ := hsegments h (.inr rfl)
    exact .inr ⟨segments, hne, hfills, .inl hlayout⟩
  | plain _ _ h =>
    obtain ⟨segments, hne, hfills, hlayout⟩ := hsegments h (.inl rfl)
    exact .inr ⟨segments, hne, hfills, .inr hlayout⟩

theorem unflawed_of_wellFormed (hd : IsDelimiter delimiter)
    (h : TakesPath delimiter path params items flawed)
    (hwell : WellFormedPath delimiter path params items) : flawed = false := by
  -- two delimiters, or a delimiter and a bracket, do not start segments
  have hkey : ∀ {segments : List (PathSegment delimiter)} {c : UInt8} {text : Bytes},
    c = delimiter ∨ c = 91 →
      renderPath segments ≠ delimiter :: c :: text := by
    intro segments c text hc hrender
    obtain ⟨others, ⟨name, hname, -, htext⟩ | ⟨-, htext⟩⟩ := renderPath_key hd hrender
    · exact hname.cons_ne (by rcases hc with hc | hc <;> simp [hc]) htext.symm
    · rcases hc with rfl | rfl
      · exact hd.ne_percent (List.cons.inj htext).1
      · cases htext
  have hnil : ∀ {segments : List (PathSegment delimiter)}, renderPath segments ≠ [delimiter] := by
    intro segments hrender
    obtain ⟨others, ⟨name, hname, -, htext⟩ | ⟨-, htext⟩⟩ := renderPath_key hd hrender
    · exact hname.ne (List.append_eq_nil_iff.mp htext.symm).1
    · cases htext
  have hempty : ∀ {segments : List (PathSegment delimiter)}, segments ≠ [] →
      renderPath segments ≠ [] := by
    intro segments hne hrender
    obtain ⟨segment, others, rfl⟩ := List.exists_cons_of_ne_nil hne
    cases segment <;> cases hrender
  rcases hwell with ⟨htext, rfl, rfl⟩ | ⟨segments, hne, hfills, hrender⟩
  · cases h with
    | empty | lone => rfl
    | delimiter hne => exact absurd (htext.resolve_left (List.cons_ne_nil _ _)) (by simpa using hne)
    | bracket hne =>
      exact absurd (htext.resolve_left (List.cons_ne_nil _ _)) (by simpa using fun _ => hne)
    | plain hne hhead => exact absurd (by rw [htext.resolve_left hne]; rfl) hhead.1
  · cases h with
    | empty =>
      rcases hrender with hrender | hrender
      · exact absurd hrender (hempty hne)
      · exact absurd hrender hnil
    | lone =>
      rcases hrender with hrender | hrender
      · exact absurd hrender hnil
      · exact absurd hrender (hkey (.inl rfl))
    | delimiter _ h =>
      rcases hrender with hrender | hrender
      · exact unflawed_of_layout hd h hfills hrender
      · exact absurd hrender (hkey (.inl rfl))
    | bracket _ h =>
      rcases hrender with hrender | hrender
      · exact unflawed_of_layout hd h hfills hrender
      · exact absurd hrender (hkey (.inr rfl))
    | plain _ hhead h =>
      rcases hrender with hrender | hrender
      · obtain ⟨c, cs, rfl⟩ := List.exists_cons_of_ne_nil (hrender ▸ hempty hne)
        rcases renderPath_head c (by rw [hrender]; rfl) with rfl | rfl
        · exact absurd rfl hhead.1
        · exact absurd rfl hhead.2
      · exact unflawed_of_layout hd h hfills hrender

def SaysError {A : Type} (result : Except PathFailure A) : Prop :=
  ∀ failure, result = .error failure → failure.error ≠ []

theorem saysError_ok {A : Type} (a : A) : SaysError (.ok a) := nofun

theorem saysError_invalidPath {A : Type} (s : Parsing) :
    SaysError (.error (invalidPath path s) : Except PathFailure A) := by
  rintro failure ⟨⟩
  exact List.cons_ne_nil _ _

theorem SaysError.bind {A B : Type} {x : Except PathFailure A} {f : A → Except PathFailure B}
    (hx : SaysError x) (hf : ∀ a, SaysError (f a)) : SaysError (x >>= f) := by
  cases x with
  | error failure =>
    rintro _ ⟨⟩
    exact hx failure rfl
  | ok a => exact hf a

theorem saysError_addPathItem (fits : PathItem → Bool) (s : Parsing) :
    SaysError (addPathItem path fits s) := by
  unfold addPathItem
  split
  · rintro failure ⟨⟩
    exact List.cons_ne_nil _ _
  · split_ifs
    · rintro failure ⟨⟩
      exact List.cons_ne_nil _ _
    · exact saysError_ok _

theorem saysError_parseStep (s : Parsing) : SaysError (parseStep delimiter path s) := by
  unfold parseStep
  dsimp only
  repeat' split
  all_goals first
    | exact saysError_ok _
    | exact saysError_invalidPath _
    | exact saysError_addPathItem _ _

theorem saysError_parseLoop (fuel : ℕ) (s : Parsing) :
    SaysError (parseLoop delimiter path fuel s) := by
  induction fuel generalizing s with
  | zero => exact saysError_ok s
  | succ fuel ih =>
    rw [parseLoop]
    split_ifs
    · exact saysError_ok s
    · exact (saysError_parseStep s).bind ih

theorem saysError_setPath (args : List PathItem) : SaysError (setPath delimiter path args) := by
  unfold setPath makePath
  dsimp only
  repeat' split
  all_goals first
    | exact saysError_ok _
    | exact saysError_invalidPath _
    | exact (saysError_parseLoop _ _).bind fun s => by
        split_ifs
        · exact saysError_invalidPath s
        · exact saysError_ok _

/-- The constructor reports no error exactly when `Set` has read the whole text. -/
theorem DynamicPath.create_ok (args : List PathItem)
    (h : (DynamicPath.create delimiter path args).ok = true) :
    setPath delimiter path args = .ok (DynamicPath.create delimiter path args).pathItems := by
  rw [DynamicPath.create] at h ⊢
  cases hset : setPath delimiter path args with
  | ok items => rfl
  | error failure =>
    rw [hset] at h
    exact absurd (List.isEmpty_iff.mp h) (saysError_setPath args failure hset)

theorem DynamicPath.create_of_set {args : List PathItem}
    (h : setPath delimiter path args = .ok items) :
    DynamicPath.create delimiter path args = ⟨delimiter, items, []⟩ := by
  rw [DynamicPath.create, h]

theorem accepted_well_formed_iff (hd : IsDelimiter delimiter) (path : Bytes)
    (args : List PathItem) :
    ((DynamicPath.create delimiter path args).ok = true →
        WellFormedPath delimiter path (args.filter (· ≠ .undef))
        (DynamicPath.create delimiter path args).pathItems) ↔
      ¬∃ items, TakesPath delimiter path (args.filter (· ≠ .undef)) items true := by
  constructor
  · rintro hwell ⟨items, htakes⟩
    have hset := (setPath_iff hd args).mpr ⟨true, htakes⟩
    rw [DynamicPath.create_of_set hset] at hwell
    cases unflawed_of_wellFormed hd htakes (hwell rfl)
  · intro hno hok
    obtain ⟨flawed, htakes⟩ := (setPath_iff hd args).mp (DynamicPath.create_ok args hok)
    cases flawed with
    | false => exact wellFormed_of_takesPath htakes rfl
    | true => exact absurd ⟨_, htakes⟩ hno

end

theorem isDelimiter_dot : IsDelimiter 46 where
  ne_open := by decide
  ne_close := by decide
  ne_percent := by decide
  not_digit := by decide

theorem isName_a : IsName 46 (ascii "a") where
  ne := by decide
  chars := List.forall_iff_forall_mem.mp (by decide)
  head := by decide

/-- `a.` is taken, with a delimiter at its end. -/
theorem accepted_well_formed_trailing_delimiter :
    ¬((DynamicPath.create 46 (ascii "a.") []).ok = true →
        WellFormedPath 46 (ascii "a.") [] (DynamicPath.create 46 (ascii "a.") []).pathItems) := by
  intro hwell
  have htakes : TakesPath 46 (ascii "a.") [] [.key (ascii "a")] true :=
    .plain (by decide) (by decide) (.name isName_a (.dot (.inl rfl) (.stop .key [])))
  exact (accepted_well_formed_iff isDelimiter_dot (ascii "a.") []).mp hwell ⟨_, htakes⟩

/-- `a[` is taken, with a bracket that is not closed. -/
theorem accepted_open_bracket :
    (DynamicPath.create 46 (ascii "a[") []).ok = true ∧
      ¬WellFormedPath 46 (ascii "a[") [] (DynamicPath.create 46 (ascii "a[") []).pathItems := by
  have htakes : TakesPath 46 (ascii "a[") [] [.key (ascii "a")] true :=
    .plain (by decide) (by decide) (.name isName_a (.openBracket (.inl rfl) (.stop .bracket [])))
  have hcreate : DynamicPath.create 46 (ascii "a[") [] = ⟨46, [.key (ascii "a")], []⟩ := by decide
  rw [hcreate]
  refine ⟨rfl, fun hwell => ?_⟩
  cases unflawed_of_wellFormed isDelimiter_dot htakes hwell

end Nkit
