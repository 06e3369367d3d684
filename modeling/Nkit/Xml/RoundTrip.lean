import Nkit.Base.Overlay
import Nkit.Xml.Formatting

/-! Dicts in the form in which documents are read are written and read back unchanged. -/

namespace Nkit
open OrderedMap XmlGrammar

section Maps
variable {es d : List (Bytes × Value)}

theorem mem_iff_get? {V : Type*} {d : List (Bytes × V)} (hs : Sorted bytesLt d) {k : Bytes}
    {v : V} :
    (k, v) ∈ d ↔ get? bytesLt k d = some v := by
  rw [get?_eq_some_iff bytesLt_strictWeak hs]
  constructor
  · exact fun h => ⟨k, equiv_bytesLt.mpr rfl, h⟩
  · rintro ⟨k', hk, h⟩
    rwa [equiv_bytesLt.mp hk]

def storeAll (es d : List (Bytes × Value)) : List (Bytes × Value) :=
  es.foldl (fun d e => store e.1 e.2 d) d

theorem storeAll_append (es es' d : List (Bytes × Value)) :
    storeAll (es ++ es') d = storeAll es' (storeAll es d) :=
  List.foldl_append

theorem storeAll_sorted {m : List (Bytes × Value)} (hs : Sorted bytesLt m)
    (es : List (Bytes × Value)) :
    Sorted bytesLt (storeAll es m) := by
  induction es generalizing m with
  | nil => exact hs
  | cons e es ih => exact ih (update_sorted bytesLt_strictWeak hs e.1 _ _)

theorem get?_store (key : Bytes) (v : Value) (m : List (Bytes × Value)) (k : Bytes) :
    get? bytesLt k (store key v m) = if key = k then some v else get? bytesLt k m :=
      get?_update_bytes ..

theorem get?_storeAll (h : ∀ e ∈ es, get? bytesLt e.1 d = some e.2) (m : List (Bytes × Value))
    (k : Bytes) :
    get? bytesLt k (storeAll es m) = if k ∈ es.map Prod.fst then get? bytesLt k d
      else get? bytesLt k m := by
  induction es generalizing m with
  | nil => rfl
  | cons e es ih =>
    have hrest := ih (fun e he => h e (List.mem_cons_of_mem _ he)) (store e.1 e.2 m)
    have hunfold : storeAll (e :: es) m = storeAll es (store e.1 e.2 m) := rfl
    rw [hunfold, hrest, get?_store]
    by_cases hk : e.1 = k
    · subst hk
      simp [h e List.mem_cons_self]
    · have hne : ¬k = e.1 := fun h => hk h.symm
      rw [if_neg hk, List.map_cons]
      simp only [List.mem_cons, hne, false_or]

theorem storeAll_eq (hs : Sorted bytesLt d) (h : ∀ e, e ∈ es ↔ e ∈ d) : storeAll es [] = d := by
  refine Sorted.ext_get? bytesLt_strictWeak equiv_bytesLt.mp (storeAll_sorted (sorted_nil _) es) hs
    fun k => ?_
  have hget : ∀ e ∈ es, get? bytesLt e.1 d = some e.2 := fun e he =>
    (mem_iff_get? hs).mp ((h e).mp he)
  rw [get?_storeAll hget]
  split
  · rfl
  · rename_i hk
    cases hv : get? bytesLt k d with
    | none => rfl
    | some v => exact absurd (List.mem_map_of_mem ((h _).mpr ((mem_iff_get? hs).mpr hv))) hk

theorem filter_key (hs : Sorted bytesLt d) (k : Bytes) :
    d.filter (fun e => e.1 == k) =
      (match get? bytesLt k d with | some v => [(k, v)] | none => []) := by
  induction d with
  | nil => rfl
  | cons e d ih =>
    have hrest := ih (sorted_cons.mp hs).2
    rw [List.filter_cons, get?_cons_bytes hs]
    by_cases hk : e.1 = k
    · subst hk
      have hnone : get? bytesLt e.1 d = none :=
        get?_eq_none_of_lt bytesLt_strictWeak fun e' he' => (sorted_cons.mp hs).1 e' he'
      rw [hnone] at hrest
      simp [hrest]
    · simp [hk, hrest]

theorem foldl_addChild (name : Bytes) (vs items : List Value) (hne : vs ++ items ≠ [])
    {m : List (Bytes × Value)} (hnone : get? bytesLt name m = none) :
    items.foldl (fun m v => addChild true name v m) (if vs.isEmpty then m
      else store name (.list vs) m) =
      store name (.list (vs ++ items)) m := by
  induction items generalizing vs with
  | nil =>
    rw [List.append_nil] at hne ⊢
    rw [List.foldl_nil, if_neg (by simpa using hne)]
  | cons v items ih =>
    have hstep : addChild true name v (if vs.isEmpty then m else store name (.list vs) m) =
        if (vs ++ [v]).isEmpty then m else store name (.list (vs ++ [v])) m := by
      rw [if_neg (by simp : ¬(vs ++ [v]).isEmpty = true)]
      cases vs with
      | nil => simp [addChild, hnone]
      | cons v' vs =>
        have hget : get? bytesLt name (store name (.list (v' :: vs)) m) =
            some (.list (v' :: vs)) := by
          rw [get?_store, if_pos rfl]
        simp only [List.isEmpty_cons, Bool.false_eq_true, if_false, addChild, hget]
        rw [store, store, update_update bytesLt_strictWeak]
        exact update_of_get?_none hnone rfl
    rw [List.foldl_cons, hstep, ih (vs ++ [v]) (by simp), List.append_assoc, List.singleton_append]

end Maps

structure NormalAttrs (names : NameTable) (attrs : List (Bytes × Value)) : Prop where
  sorted : Sorted bytesLt attrs
  nonempty : attrs ≠ []
  names : ∀ a ∈ attrs, names.isName a.1 = true
  values : ∀ a ∈ attrs, ∃ s, a.2 = .str s ∧ XmlText s ∧ 9 ∉ s ∧ 10 ∉ s

mutual

/-- A dict in the form in which elements are read, for the keys of attributes and texts. -/
inductive Normal (names : NameTable) (A T : Bytes) : List (Bytes × Value) → Prop where
  | mk {d : List (Bytes × Value)} (hs : Sorted bytesLt d)
      (hattrs : ∀ v, (A, v) ∈ d → ∃ attrs, v = .dict attrs ∧ NormalAttrs names attrs)
      (htext : ∀ v, (T, v) ∈ d → ∃ s, v = .str s ∧ s ≠ [] ∧ XmlText s)
      (hnames : ∀ e ∈ d, e.1 ≠ A → e.1 ≠ T → names.isName e.1 = true ∧ 58 ∉ e.1)
      (hlists : ∀ e ∈ d, e.1 ≠ A → e.1 ≠ T → ∃ items, e.2 = .list items ∧ items ≠ [])
      (hitems : ∀ e ∈ d, e.1 ≠ A → e.1 ≠ T → ∀ items, e.2 = .list items → ∀ v ∈ items,
        NormalItem names A T v) :
      Normal names A T d

inductive NormalItem (names : NameTable) (A T : Bytes) : Value → Prop where
  | str {s : Bytes} (hs : XmlText s) : NormalItem names A T (.str s)
  | dict {d : List (Bytes × Value)} (hd : Normal names A T d) (hne : ∃ e ∈ d, e.1 = A ∨ e.1 ≠ T) :
      NormalItem names A T (.dict d)

end

def elementReading (ro : Options) (attrs : List (Bytes × Bytes)) (body : XmlContent) : Value :=
  if attrs.isEmpty && !body.hasElements then .str (ro.trimmed body.characters)
  else .dict (storeText ro body.characters (body.addTo ro (storeAttrs ro attrs [])))

/-- Writer and reader have the same keys; texts are not trimmed, and children make lists. -/
structure Agree (ro : Options) (o : Var2XmlOptions) : Prop where
  attrKey : o.attrKey = ro.attrkey
  textKey : o.textKey = ro.textkey
  trim : ro.trim = false
  explicitArray : ro.explicitArray = true
  priority : o.priorityList = []

section Reading
variable {names : NameTable} {ro : Options} {o : Var2XmlOptions}

theorem Agree.trimmed (hag : Agree ro o) (s : Bytes) : ro.trimmed s = s := by
  rw [Options.trimmed, hag.trim]
  rfl

theorem textContent_characters (s : Bytes) : (textContent s).characters = s := by
  rw [textContent]
  split
  · rename_i h
    exact (List.isEmpty_iff.mp h).symm
  · exact List.append_nil s

theorem textContent_elements (s : Bytes) : (textContent s).hasElements = false := by
  rw [textContent]
  split <;> rfl

theorem textContent_addTo (s : Bytes) (m : List (Bytes × Value)) :
    (textContent s).addTo ro m = m := by
  rw [textContent]
  split <;> rfl

theorem dictText_addTo (d m : List (Bytes × Value)) : (dictText o d).addTo ro m = m := by
  rw [dictText]
  split
  · exact textContent_addTo _ m
  · rfl

theorem readAttrs_reported {attrs : List (Bytes × Value)} (h : NormalAttrs names attrs) :
    readAttrs ((attrs.map fun a => (a.1, a.2.getString)).map fun a => (a.1, normalizeValue a.2)) =
      attrs := by
  have hmap : ∀ a ∈ attrs, Value.str (normalizeValue a.2.getString) = a.2 := by
    intro a ha
    obtain ⟨s, hs, -, htab, hline⟩ := h.values a ha
    have hnorm : normalizeValue s = s := by
      rw [normalizeValue]
      refine (List.map_congr_left fun b hb => ?_).trans (List.map_id s)
      split
      · rename_i hspace
        simp only [isXmlSpace, Bool.or_eq_true, beq_iff_eq] at hspace
        rcases hspace with (rfl | rfl) | rfl
        · rfl
        · exact absurd hb htab
        · exact absurd hb hline
      · rfl
    rw [hs, Value.getString, hnorm]
  have hfold :
      readAttrs ((attrs.map fun a => (a.1, a.2.getString)).map fun a => (a.1, normalizeValue a.2)) =
        storeAll attrs [] := by
    rw [readAttrs, storeAll, List.map_map, List.foldl_map]
    refine List.foldl_ext _ _ _ fun m a ha => ?_
    show store a.1 (.str (normalizeValue a.2.getString)) m = store a.1 a.2 m
    rw [hmap a ha]
  rw [hfold, storeAll_eq h.sorted fun _ => Iff.rfl]

theorem storeAttrs_normal (hag : Agree ro o) {d : List (Bytes × Value)}
    (hd : Normal names o.attrKey o.textKey d) :
    storeAttrs ro (reportedAttrs o (.dict d)) [] = storeAll (d.filter fun e => e.1 == o.attrKey)
      [] := by
  cases hd with
  | mk hs hattrs _ _ _ _ =>
    rw [filter_key hs, reportedAttrs, writtenAttrs, Var2XmlConverter.attributes]
    cases hget : get? bytesLt o.attrKey d with
    | none => rfl
    | some v =>
      obtain ⟨attrs, rfl, hnormal⟩ := hattrs v ((mem_iff_get? hs).mpr hget)
      have hne :
          ¬((attrs.map fun a => (a.1, a.2.getString)).map fun a =>
            (a.1, normalizeValue a.2)).isEmpty = true := by
        simpa using hnormal.nonempty
      dsimp only
      rw [storeAttrs, if_neg hne, readAttrs_reported hnormal, ← hag.attrKey]
      rfl

theorem storeText_normal (hag : Agree ro o) {d : List (Bytes × Value)}
    (hd : Normal names o.attrKey o.textKey d) (m : List (Bytes × Value)) :
    storeText ro (dictText o d).characters m = storeAll (d.filter fun e => e.1 == o.textKey) m := by
  cases hd with
  | mk hs _ htext _ _ _ =>
    rw [filter_key hs, dictText]
    cases hget : get? bytesLt o.textKey d with
    | none =>
      rw [storeText, XmlContent.characters, hag.trimmed]
      rfl
    | some v =>
      obtain ⟨s, rfl, hne, -⟩ := htext v ((mem_iff_get? hs).mpr hget)
      dsimp only
      rw [Value.getString, textContent_characters, storeText, hag.trimmed,
        if_neg (by simpa using hne), ← hag.textKey]
      rfl

def ReadsMember (ro : Options) (key : Bytes) (v : Value) (c : XmlContent) : Prop :=
  c.hasElements = true ∧ c.characters = [] ∧ ∀ m, get? bytesLt key m = none →
    c.addTo ro m = store key v m

theorem concat_reading {es : List (Bytes × Value)} {cs : List (Bytes × XmlContent)}
    (h : List.Forall₂ (fun e c => ReadsMember ro e.1 e.2 c.2) es cs)
    (hnodup : (es.map Prod.fst).Nodup) :
    (concatContents cs).characters = [] ∧ (concatContents cs).hasElements = !es.isEmpty ∧
      ∀ m, (∀ e ∈ es, get? bytesLt e.1 m = none) → (concatContents cs).addTo ro m =
        storeAll es m := by
  induction h with
  | nil => exact ⟨rfl, rfl, fun _ _ => rfl⟩
  | @cons e c es cs hec _ ih =>
    rw [List.map_cons, List.nodup_cons] at hnodup
    obtain ⟨hchars, -, hadd⟩ := ih hnodup.2
    have hcons : concatContents (c :: cs) = c.2.append (concatContents cs) := rfl
    rw [hcons]
    refine ⟨?_, ?_, fun m hm => ?_⟩
    · rw [XmlContent.characters_append, hec.2.1, hchars]
      rfl
    · rw [XmlContent.hasElements_append, hec.1]
      rfl
    · rw [XmlContent.addTo_append, hec.2.2 m (hm e List.mem_cons_self)]
      refine hadd _ fun e' he' => ?_
      have hne : e.1 ≠ e'.1 := fun heq => hnodup.1 (heq ▸ List.mem_map_of_mem he')
      rw [get?_store, if_neg hne]
      exact hm e' (List.mem_cons_of_mem _ he')

def isChild (o : Var2XmlOptions) (key : Bytes) : Bool := !(o.attrKey == key || o.textKey == key)

theorem members_of_agree (hag : Agree ro o) {α : Type*} (entries : List (Bytes × α)) :
    o.members entries = entries.filter fun e => isChild o e.1 := by
  simp [Var2XmlOptions.members, hag.priority, isChild]

theorem isChild_iff {key : Bytes} : isChild o key = true ↔ key ≠ o.attrKey ∧ key ≠ o.textKey := by
  rw [isChild, Bool.not_eq_true', Bool.or_eq_false_iff, beq_eq_false_iff_ne, beq_eq_false_iff_ne]
  exact and_congr ne_comm ne_comm

theorem Normal.children {d : List (Bytes × Value)} (hd : Normal names o.attrKey o.textKey d) :
    ∀ e ∈ d, isChild o e.1 = true → names.isName e.1 = true ∧ ∃ items, e.2 = .list items ∧
      items ≠ [] ∧
      ∀ v ∈ items, NormalItem names o.attrKey o.textKey v := by
  intro e he hchild
  obtain ⟨hattr, htext⟩ := isChild_iff.mp hchild
  cases hd with
  | mk _ _ _ hnames hlists hitems =>
    obtain ⟨items, heq, hne⟩ := hlists e he hattr htext
    exact ⟨(hnames e he hattr htext).1, items, heq, hne, hitems e he hattr htext items heq⟩

theorem Normal.attrs_nonempty {d : List (Bytes × Value)} (hd : Normal names o.attrKey o.textKey d)
    {v : Value} (hv : (o.attrKey, v) ∈ d) : (reportedAttrs o (.dict d)).isEmpty = false := by
  cases hd with
  | mk hs hattrs _ _ _ _ =>
    obtain ⟨attrs, rfl, hnormal⟩ := hattrs v hv
    have hget := (mem_iff_get? hs).mp hv
    rw [reportedAttrs, writtenAttrs, Var2XmlConverter.attributes, hget]
    simpa using hnormal.nonempty

def ReadsChildren (ro : Options) (o : Var2XmlOptions) (es : List (Bytes × Value)) : Prop :=
  List.Forall₂ (fun e c => e.1 = c.1 ∧ (isChild o e.1 = true → ReadsMember ro e.1 e.2 c.2)) es
    (memberContents o es)

theorem filter_forall₂ {es : List (Bytes × Value)} {cs : List (Bytes × XmlContent)}
    (h : List.Forall₂ (fun e c => e.1 = c.1 ∧ (isChild o e.1 = true → ReadsMember ro e.1 e.2 c.2))
      es cs) :
    List.Forall₂ (fun e c => ReadsMember ro e.1 e.2 c.2) (es.filter fun e => isChild o e.1)
      (cs.filter fun c => isChild o c.1) := by
  induction h with
  | nil => exact .nil
  | @cons e c es cs hec _ ih =>
    rw [List.filter_cons, List.filter_cons, ← hec.1]
    split
    · rename_i hchild
      exact .cons (hec.2 hchild) ih
    · exact ih

theorem dict_reading (hag : Agree ro o) {d : List (Bytes × Value)}
    (hd : Normal names o.attrKey o.textKey d) (hchildren : ReadsChildren ro o d)
    (itemName : Bytes) :
    storeText ro (contentOf o itemName (.dict d)).characters
        ((contentOf o itemName (.dict d)).addTo ro (storeAttrs ro (reportedAttrs o (.dict d)) [])) =
          d ∧
      ((∃ e ∈ d, isChild o e.1 = true) → (contentOf o itemName (.dict d)).hasElements = true) := by
  have hs : Sorted bytesLt d := by
    cases hd with
    | mk hs => exact hs
  have hnodup : ((d.filter fun e => isChild o e.1).map Prod.fst).Nodup :=
    (nodup_keys hs).sublist ((List.filter_sublist).map _)
  obtain ⟨hchars, helements, hadd⟩ := concat_reading (filter_forall₂ hchildren) hnodup
  rw [contentOf, members_of_agree hag]
  refine ⟨?_, fun ⟨e, he, hchild⟩ => ?_⟩
  · have hfresh : ∀ e ∈ d.filter (fun e => isChild o e.1),
        get? bytesLt e.1 (storeAll (d.filter fun e => e.1 == o.attrKey) []) = none := by
      intro e he
      have hget : ∀ e ∈ d.filter (fun e => e.1 == o.attrKey), get? bytesLt e.1 d = some e.2 :=
        fun e he => (mem_iff_get? hs).mp (List.mem_filter.mp he).1
      rw [get?_storeAll hget, if_neg]
      · rfl
      · intro hin
        obtain ⟨e', he', heq⟩ := List.mem_map.mp hin
        exact (isChild_iff.mp (List.mem_filter.mp he).2).1
          (heq ▸ eq_of_beq (List.mem_filter.mp he').2)
    rw [XmlContent.characters_append, hchars, List.nil_append, XmlContent.addTo_append,
      dictText_addTo, storeAttrs_normal hag hd, hadd _ hfresh, storeText_normal hag hd,
      ← storeAll_append, ← storeAll_append]
    refine storeAll_eq hs fun e => ?_
    simp only [List.mem_append, List.mem_filter, beq_iff_eq, isChild_iff]
    tauto
  · rw [XmlContent.hasElements_append, helements]
    have hne : (d.filter fun e => isChild o e.1) ≠ [] :=
      List.ne_nil_of_mem (List.mem_filter.mpr ⟨he, hchild⟩)
    simp [hne]

theorem addTo_element (name : Bytes) (attrs : List (Bytes × Bytes)) (body rest : XmlContent)
    (m : List (Bytes × Value)) :
    (XmlContent.element name attrs body rest).addTo ro m =
      rest.addTo ro (addChild ro.explicitArray name (elementReading ro attrs body) m) := rfl

mutual

theorem item_reading (hag : Agree ro o) (v : Value) (hv : NormalItem names o.attrKey o.textKey v) :
    elementReading ro (reportedAttrs o v) (contentOf o [] v) = v := by
  match v, hv with
  | .str s, _ =>
    have hattrs : reportedAttrs o (.str s) = [] := rfl
    rw [contentOf, hattrs, elementReading, textContent_elements, textContent_characters,
      hag.trimmed]
    rfl
  | .list items, hv => cases hv
  | .dict d, .dict hd hne =>
    obtain ⟨hread, helements⟩ := dict_reading hag hd (members_reading hag d hd.children) []
    have hcomplex :
        ((reportedAttrs o (.dict d)).isEmpty && !(contentOf o [] (.dict d)).hasElements) =
          false := by
      obtain ⟨e, he, hkey⟩ := hne
      by_cases hattr : e.1 = o.attrKey
      · rw [hd.attrs_nonempty (v := e.2) (hattr ▸ he)]
        rfl
      · rw [helements ⟨e, he, isChild_iff.mpr ⟨hattr, hkey.resolve_left hattr⟩⟩, Bool.not_true,
          Bool.and_false]
    rw [elementReading, hcomplex, hread]
    rfl

theorem members_reading (hag : Agree ro o) (es : List (Bytes × Value))
    (h : ∀ e ∈ es, isChild o e.1 = true → names.isName e.1 = true ∧ ∃ items, e.2 = .list items ∧
      items ≠ [] ∧ ∀ v ∈ items, NormalItem names o.attrKey o.textKey v) :
    ReadsChildren ro o es := by
  match es with
  | [] =>
    rw [ReadsChildren, memberContents]
    exact .nil
  | (key, .list items) :: es =>
    have hrest := members_reading hag es fun e he => h e (List.mem_cons_of_mem _ he)
    rw [ReadsChildren, memberContents]
    refine .cons ⟨rfl, fun hchild => ?_⟩ hrest
    obtain ⟨hkey, _, ⟨⟩, hne, hitems⟩ := h (key, .list items) List.mem_cons_self hchild
    have hcontent : contentOf o key (.list items) = itemContents o key items := by
      rw [contentOf, if_neg (by simpa using (names.bytes key hkey).1)]
    simp only [Value.isList, if_true, hcontent]
    refine ⟨?_, itemContents_characters o key items, fun m hm => ?_⟩
    · cases items with
      | nil => exact absurd rfl hne
      | cons v items => rw [itemContents, XmlContent.hasElements]
    · rw [items_reading hag key items hitems m]
      exact foldl_addChild key [] items hne hm
  | (key, .str s) :: es =>
    have hrest := members_reading hag es fun e he => h e (List.mem_cons_of_mem _ he)
    rw [ReadsChildren, memberContents]
    refine .cons ⟨rfl, fun hchild => ?_⟩ hrest
    obtain ⟨-, _, ⟨⟩, -⟩ := h (key, .str s) List.mem_cons_self hchild
  | (key, .dict d) :: es =>
    have hrest := members_reading hag es fun e he => h e (List.mem_cons_of_mem _ he)
    rw [ReadsChildren, memberContents]
    refine .cons ⟨rfl, fun hchild => ?_⟩ hrest
    obtain ⟨-, _, ⟨⟩, -⟩ := h (key, .dict d) List.mem_cons_self hchild

theorem items_reading (hag : Agree ro o) (name : Bytes) (items : List Value)
    (h : ∀ v ∈ items, NormalItem names o.attrKey o.textKey v) (m : List (Bytes × Value)) :
    (itemContents o name items).addTo ro m = items.foldl (fun m v => addChild true name v m) m := by
  match items with
  | [] =>
    rw [itemContents]
    rfl
  | v :: items =>
    rw [itemContents, addTo_element, item_reading hag v (h v List.mem_cons_self), hag.explicitArray,
      items_reading hag name items fun v hv => h v (List.mem_cons_of_mem _ hv)]
    rfl

end

/-- A content that is well formed when it is written. -/
def Sound (names : NameTable) (c : XmlContent) : Prop := c.Named names ∧ c.Valid

def SoundAttrs (names : NameTable) (attrs : List (Bytes × Bytes)) : Prop :=
  (∀ a ∈ attrs, names.isName a.1 = true) ∧ (attrs.map Prod.fst).Nodup ∧ ∀ a ∈ attrs, XmlText a.1 ∧
    XmlText a.2

theorem sound_nil : Sound names .nil := ⟨trivial, trivial⟩

theorem Sound.append {a b : XmlContent} (ha : Sound names a) (hb : Sound names b) :
    Sound names (a.append b) :=
  ⟨(XmlContent.named_append ..).mpr ⟨ha.1, hb.1⟩, (XmlContent.valid_append ..).mpr ⟨ha.2, hb.2⟩⟩

theorem sound_element {name : Bytes} {attrs : List (Bytes × Bytes)} {body rest : XmlContent}
    (hname : names.isName name = true) (hattrs : SoundAttrs names attrs) (hbody : Sound names body)
    (hrest : Sound names rest) :
    Sound names (.element name attrs body rest) :=
  ⟨⟨hname, hattrs.1, hattrs.2.1, hbody.1, hrest.1⟩, names.text name hname, hattrs.2.2, hbody.2,
    hrest.2⟩

theorem sound_text {s : Bytes} (hs : XmlText s) : Sound names (textContent s) := by
  rw [textContent]
  split
  · exact sound_nil
  · exact ⟨trivial, hs, trivial⟩

theorem sound_concat {cs : List (Bytes × XmlContent)} (h : ∀ c ∈ cs, Sound names c.2) :
    Sound names (concatContents cs) := by
  induction cs with
  | nil => exact sound_nil
  | cons c cs ih =>
    exact (h c List.mem_cons_self).append (ih fun c hc => h c (List.mem_cons_of_mem _ hc))

theorem soundAttrs_nil : SoundAttrs names [] :=
  ⟨fun _ h => absurd h List.not_mem_nil, List.nodup_nil, fun _ h => absurd h List.not_mem_nil⟩

theorem Normal.soundAttrs {d : List (Bytes × Value)} (hd : Normal names o.attrKey o.textKey d) :
    SoundAttrs names (reportedAttrs o (.dict d)) := by
  cases hd with
  | mk hs hattrs _ _ _ _ =>
    rw [reportedAttrs, writtenAttrs, Var2XmlConverter.attributes]
    cases hget : get? bytesLt o.attrKey d with
    | none => exact soundAttrs_nil
    | some v =>
      obtain ⟨attrs, rfl, hnormal⟩ := hattrs v ((mem_iff_get? hs).mpr hget)
      dsimp only
      refine ⟨?_, ?_, ?_⟩
      · simp only [List.forall_mem_map]
        exact hnormal.names
      · simpa [List.map_map, Function.comp_def] using nodup_keys hnormal.sorted
      · simp only [List.forall_mem_map, xmlText_normalizeValue]
        intro a ha
        obtain ⟨s, heq, htext, -⟩ := hnormal.values a ha
        refine ⟨names.text a.1 (hnormal.names a ha), ?_⟩
        rw [heq]
        exact htext

theorem dict_sound (hag : Agree ro o) {d : List (Bytes × Value)}
    (hd : Normal names o.attrKey o.textKey d)
    (hmembers : ∀ c ∈ memberContents o d, isChild o c.1 = true → Sound names c.2)
    (itemName : Bytes) :
    Sound names (contentOf o itemName (.dict d)) := by
  rw [contentOf, members_of_agree hag]
  refine (sound_concat fun c hc => ?_).append ?_
  · obtain ⟨hin, hchild⟩ := List.mem_filter.mp hc
    exact hmembers c hin hchild
  · rw [dictText]
    cases hd with
    | mk hs _ htext _ _ _ =>
      cases hget : get? bytesLt o.textKey d with
      | none => exact sound_nil
      | some v =>
        obtain ⟨s, rfl, -, hs'⟩ := htext v ((mem_iff_get? hs).mpr hget)
        exact sound_text hs'

mutual

theorem item_sound (hag : Agree ro o) (v : Value) (hv : NormalItem names o.attrKey o.textKey v) :
    SoundAttrs names (reportedAttrs o v) ∧ Sound names (contentOf o [] v) := by
  match v, hv with
  | .str s, .str hs =>
    rw [contentOf]
    exact ⟨soundAttrs_nil, sound_text hs⟩
  | .list items, hv => cases hv
  | .dict d, .dict hd _ =>
    exact ⟨hd.soundAttrs, dict_sound hag hd (members_sound hag d hd.children) []⟩

theorem members_sound (hag : Agree ro o) (es : List (Bytes × Value))
    (h : ∀ e ∈ es, isChild o e.1 = true → names.isName e.1 = true ∧ ∃ items, e.2 = .list items ∧
      items ≠ [] ∧ ∀ v ∈ items, NormalItem names o.attrKey o.textKey v) :
    ∀ c ∈ memberContents o es, isChild o c.1 = true → Sound names c.2 := by
  match es with
  | [] =>
    rw [memberContents]
    exact fun c hc => absurd hc List.not_mem_nil
  | (key, v) :: es =>
    rw [memberContents, List.forall_mem_cons]
    refine ⟨fun hchild => ?_, members_sound hag es fun e he => h e (List.mem_cons_of_mem _ he)⟩
    match v with
    | .list items =>
      obtain ⟨hname, _, ⟨⟩, -, hitems⟩ := h (key, .list items) List.mem_cons_self hchild
      simp only [Value.isList, if_true]
      rw [contentOf, if_neg (by simpa using (names.bytes key hname).1)]
      exact items_sound hag key hname items hitems
    | .str s => obtain ⟨-, _, ⟨⟩, -⟩ := h (key, .str s) List.mem_cons_self hchild
    | .dict d => obtain ⟨-, _, ⟨⟩, -⟩ := h (key, .dict d) List.mem_cons_self hchild

theorem items_sound (hag : Agree ro o) (name : Bytes) (hname : names.isName name = true)
    (items : List Value) (h : ∀ v ∈ items, NormalItem names o.attrKey o.textKey v) :
    Sound names (itemContents o name items) := by
  match items with
  | [] =>
    rw [itemContents]
    exact sound_nil
  | v :: items =>
    rw [itemContents]
    obtain ⟨hattrs, hbody⟩ := item_sound hag v (h v List.mem_cons_self)
    exact sound_element hname hattrs hbody
      (items_sound hag name hname items fun v hv => h v (List.mem_cons_of_mem _ hv))

end

end Reading

/-- A normal dict is written as a text that is read as the dict. -/
theorem normal_round_trip (names : NameTable) (expat : Expat) (hexpat : expat.Conforms names)
    (ro : Options) (htrim : ro.trim = false) (harray : ro.explicitArray = true)
    (settings : Var2XmlSettings) (hplain : settings = settings.plain)
    (hpriority : settings.priority = [])
    (hattrkey : (Var2XmlOptions.create settings).attrKey = ro.withDefaultKeys.attrkey)
    (htextkey : (Var2XmlOptions.create settings).textKey = ro.withDefaultKeys.textkey)
    (hversion : ∀ v, settings.version = some v → v ≠ [] → VersionNum v)
    (hroot : names.isName (Var2XmlOptions.create settings).rootName = true)
    (d : List (Bytes × Value))
    (hd : Normal names (Var2XmlOptions.create settings).attrKey
      (Var2XmlOptions.create settings).textKey d) :
    ∃ text s, var2XmlProcess (.create settings) (.dict d) = some (.ok text) ∧
      dynamicFromAnyXml expat ro text = some s ∧
      s.rootName = (Var2XmlOptions.create settings).rootName ∧ ∀ v, Reads s.objects ∅ s.var v ↔
        v = .dict d := by
  have hag : Agree ro.withDefaultKeys (.create settings) :=
    ⟨hattrkey, htextkey, htrim, harray, hpriority⟩
  have hun : Unseen ro.withDefaultKeys (.create settings) := by
    rw [hplain]
    exact unseen_plain _ rfl rfl
  have hbody :=
    dict_sound hag hd (members_sound hag d hd.children) (Var2XmlOptions.create settings).itemName
  obtain ⟨hnamed, hvalid⟩ := sound_element hroot hd.soundAttrs hbody sound_nil
  have hdict : ∀ s, Value.dict d ≠ .str s := by rintro s ⟨⟩
  obtain ⟨text, htext, hiff, hread⟩ :=
    process_reads hun (declares_create settings hversion) hdict hnamed
  obtain ⟨doc, hdoc, hname, hvalue⟩ := hread (hiff.mpr hvalid)
  obtain ⟨s, hs, hrootname, hreads⟩ := dynamicFromAnyXml_reads hexpat hdoc ro
  have hdread : (documentOf (.create settings) (.dict d)).read ro.withDefaultKeys = .dict d := by
    obtain ⟨hdict, -⟩ :=
      dict_reading hag hd (members_reading hag d hd.children)
        (Var2XmlOptions.create settings).itemName
    exact congrArg Value.dict hdict
  refine ⟨text, s, htext, hs, hrootname.trans hname, ?_⟩
  rw [← hdread, ← hvalue]
  exact hreads

def rawOptions : Options := ⟨false, Tools.whiteSpaces, true, ascii "$", ascii "_"⟩

def rooted (name : Bytes) : Var2XmlSettings :=
  ⟨some name, none, none, none, none, none, none, none, [], [], [], []⟩

/-- `<r k="v"><b>1</b><b><c></c></b>x&lt;y</r>` -/
def normalDict : List (Bytes × Value) :=
  [(ascii "$", .dict [(ascii "k", .str (ascii "v"))]), (ascii "_", .str (ascii "x<y")),
    (ascii "b", .list [.str (ascii "1"), .dict [(ascii "c", .list [.str []])]])]

theorem normalDict_normal : Normal asciiNames (ascii "$") (ascii "_") normalDict := by
  have hinner : Normal asciiNames (ascii "$") (ascii "_") [(ascii "c", .list [.str []])] := by
    refine .mk (sorted_iff_keys.mpr (by decide)) ?_ ?_ ?_ ?_ ?_
    · simp [ascii]
    · simp [ascii]
    · simp only [List.forall_mem_singleton]
      decide
    · simp
    · rintro e he - - items heq v hv
      simp only [List.mem_singleton] at he
      rw [he] at heq
      cases heq
      obtain rfl := List.mem_singleton.mp hv
      exact .str (by decide)
  have hb : ∀ e ∈ normalDict, e.1 ≠ ascii "$" → e.1 ≠ ascii "_" →
      e = (ascii "b", .list [.str (ascii "1"), .dict [(ascii "c", .list [.str []])]]) := by
    intro e he hattr htext
    simp only [normalDict, List.mem_cons, List.not_mem_nil, or_false] at he
    rcases he with rfl | rfl | rfl
    · exact absurd rfl hattr
    · exact absurd rfl htext
    · rfl
  refine .mk (sorted_iff_keys.mpr (by decide)) ?_ ?_ ?_ ?_ ?_
  · intro v hv
    have hv : v = .dict [(ascii "k", .str (ascii "v"))] := by simpa [normalDict, ascii] using hv
    refine ⟨_, hv, sorted_iff_keys.mpr (by decide), by simp, ?_, ?_⟩
    · simp only [List.forall_mem_singleton]
      decide
    · simp only [List.forall_mem_singleton]
      exact ⟨_, rfl, by decide, by decide, by decide⟩
  · intro v hv
    have hv : v = .str (ascii "x<y") := by simpa [normalDict, ascii] using hv
    exact ⟨_, hv, by decide, by decide⟩
  · intro e he hattr htext
    rw [hb e he hattr htext]
    decide
  · intro e he hattr htext
    rw [hb e he hattr htext]
    exact ⟨_, rfl, by simp⟩
  · intro e he hattr htext items heq v hv
    rw [hb e he hattr htext] at heq
    cases heq
    simp only [List.mem_cons, List.not_mem_nil, or_false] at hv
    rcases hv with rfl | rfl
    · exact .str (by decide)
    · exact .dict hinner ⟨_, List.mem_singleton_self _, .inr (by decide)⟩

theorem normal_round_trip_nested :
    ∃ text s, var2XmlProcess (.create (rooted (ascii "r"))) (.dict normalDict) = some (.ok text) ∧
      dynamicFromAnyXml (grammarExpat asciiNames) rawOptions text = some s ∧
        s.rootName = ascii "r" ∧
      ∀ v, Reads s.objects ∅ s.var v ↔ v = .dict normalDict :=
  normal_round_trip asciiNames (grammarExpat asciiNames) (grammarExpat_conforms asciiNames)
    rawOptions rfl rfl
    (rooted (ascii "r")) rfl rfl rfl rfl (by rintro v ⟨⟩) (by decide) normalDict normalDict_normal

/-- A root name that is not empty need not be a name. -/
theorem round_trip_needs_root_name :
    ascii "1" ≠ [] ∧ Normal asciiNames (ascii "$") (ascii "_") [] ∧
      var2XmlProcess (.create (rooted (ascii "1"))) (.dict []) = some (.ok (ascii "<1></1>")) ∧
      dynamicFromAnyXml (grammarExpat asciiNames) rawOptions (ascii "<1></1>") = none := by
  refine ⟨by decide, ?_, rfl, ?_⟩
  · refine .mk (sorted_nil _) ?_ ?_ ?_ ?_ ?_
    all_goals simp
  · have herror : (grammarExpat asciiNames (ascii "<1></1>")).2 = false := by decide
    rw [dynamicFromAnyXml, herror]
    cases AnyXml2VarBuilder.parse rawOptions (grammarExpat asciiNames (ascii "<1></1>")).1 <;> rfl

end Nkit
