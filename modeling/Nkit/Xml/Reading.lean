import Nkit.Xml.AnyXml
import Nkit.Dynamic.Reads

/-! The recursive reading of an element tree, and what the builders do to a dict that is being
written. -/

namespace Nkit
open OrderedMap

/-- What stands between two tags, in document order. A text may come in several pieces. -/
inductive XmlContent where
  | nil
  | text (s : Bytes) (rest : XmlContent)
  | element (name : Bytes) (attrs : List (Bytes × Bytes)) (body rest : XmlContent)

structure XmlDocument where
  name : Bytes
  attrs : List (Bytes × Bytes)
  body : XmlContent

namespace XmlContent

def events : XmlContent → List XmlEvent
  | nil => []
  | text s rest => .text s :: rest.events
  | element name attrs body rest =>
    .startElement name attrs :: (body.events ++ .endElement name :: rest.events)

def characters : XmlContent → Bytes
  | nil => []
  | text s rest => s ++ rest.characters
  | element _ _ _ rest => rest.characters

def hasElements : XmlContent → Bool
  | nil => false
  | text _ rest => rest.hasElements
  | element .. => true

end XmlContent

def XmlDocument.events (d : XmlDocument) : List XmlEvent :=
  .startElement d.name d.attrs :: (d.body.events ++ [.endElement d.name])

def store (key : Bytes) (v : Value) : List (Bytes × Value) → List (Bytes × Value) :=
  update bytesLt key v fun _ => v

def addChild (explicitArray : Bool) (name : Bytes) (v : Value) (d : List (Bytes × Value)) :
    List (Bytes × Value) :=
  match get? bytesLt name d with
  | none => store name (if explicitArray then .list [v] else v) d
  | some (.list vs) => store name (.list (vs ++ [v])) d
  | some old => store name (.list [old, v]) d

def readAttrs (attrs : List (Bytes × Bytes)) : List (Bytes × Value) :=
  attrs.foldl (fun d attr => store attr.1 (.str attr.2) d) []

def storeAttrs (o : Options) (attrs : List (Bytes × Bytes)) (d : List (Bytes × Value)) :
    List (Bytes × Value) :=
  if attrs.isEmpty then d else store o.attrkey (.dict (readAttrs attrs)) d

def Options.trimmed (o : Options) (s : Bytes) : Bytes :=
  if o.trim then Tools.trim s o.whiteSpaces else s

def storeText (o : Options) (s : Bytes) (d : List (Bytes × Value)) : List (Bytes × Value) :=
  if (o.trimmed s).isEmpty then d else store o.textkey (.str (o.trimmed s)) d

def XmlContent.addTo (o : Options) : XmlContent → List (Bytes × Value) → List (Bytes × Value)
  | nil, d => d
  | text _ rest, d => rest.addTo o d
  | element name attrs body rest, d =>
    let v :=
      if attrs.isEmpty && !body.hasElements then .str (o.trimmed body.characters)
      else .dict (storeText o body.characters (body.addTo o (storeAttrs o attrs [])))
    rest.addTo o (addChild o.explicitArray name v d)

def XmlDocument.read (o : Options) (d : XmlDocument) : Value :=
  .dict (storeText o d.body.characters (d.body.addTo o (storeAttrs o d.attrs [])))

theorem values_store (key : Bytes) (slot : Slot) (es : List (Bytes × Slot)) :
    values (update bytesLt key slot (fun _ => slot) es) = store key slot.val (values es) :=
  map_values_update Slot.val (fun _ => slot.val) (fun _ => rfl) key slot es

theorem get?_values (key : Bytes) (es : List (Bytes × Slot)) :
    get? bytesLt key (values es) = (get? bytesLt key es).map Slot.val := get?_map_values ..

section Builders
variable {m : Objects} {O : Set ℕ} {A : ℕ} {es : List (Bytes × Slot)} {b : VarBuilder}

theorem initAsString_reads (hm : Tracks m O) (text : Bytes) (b : VarBuilder) :
    Reads (b.initAsString text m).2 O (b.initAsString text m).1.object (.str text) ∧
      Touches ∅ m (b.initAsString text m).2 ∧ Tracks (b.initAsString text m).2 O := by
  have ht : Touches ∅ m (b.initAsString text m).2 := touches_alloc ∅ m (.str text)
  refine ⟨.str (m.alloc_objs _) ?_, ht, hm.fresh ht (hm.bounded.alloc _)⟩
  intro hin
  exact absurd (hm.live _ hin) (Nat.lt_irrefl _)

theorem setDictKeyText_step (h : OpenDict m O A es) (hm : Tracks m O) (hobj : b.object = some A)
    (key text : Bytes) :
    ∃ b' m' es', b.setDictKeyText key text m = (b', m') ∧ b'.object = some A ∧
      DictStep m O A es m' es' ∧
      values es' = store key (.str text) (values es) := by
  obtain ⟨hread, ht, hm₁⟩ := initAsString_reads hm text (b.stringBuilder.getD .new)
  have hstep := (DictStep.store (h.fresh hm ht) hm₁ hread rfl key).fresh ht
  refine ⟨_, _, _, rfl, hobj, ?_, values_store key (.value (.str text)) es⟩
  rw [hobj]
  exact hstep

theorem setAttrs_step (attrs : List (Bytes × Bytes)) (h : OpenDict m O A es) (hm : Tracks m O)
    (hobj : b.object = some A) :
    ∃ b' m' es', attrs.foldl (fun (ab, m) attr => VarBuilder.setDictKeyText attr.1 attr.2 m ab)
      (b, m) = (b', m') ∧
      b'.object = some A ∧ DictStep m O A es m' es' ∧
      values es' = attrs.foldl (fun d attr => store attr.1 (.str attr.2) d) (values es) := by
  induction attrs generalizing b m O es with
  | nil => exact ⟨b, m, es, rfl, hobj, .refl h hm, rfl⟩
  | cons attr attrs ih =>
    obtain ⟨b₁, m₁, es₁, heq₁, hobj₁, hstep₁, hval₁⟩ := setDictKeyText_step h hm hobj attr.1 attr.2
    obtain ⟨b₂, m₂, es₂, heq₂, hobj₂, hstep₂, hval₂⟩ := ih hstep₁.dict hstep₁.tracks hobj₁
    refine ⟨b₂, m₂, es₂, ?_, hobj₂, hstep₁.trans hstep₂ (h.owned A List.mem_cons_self), ?_⟩
    · rw [List.foldl_cons, ← heq₂]
      simp only [heq₁]
    · rw [hval₂, hval₁, List.foldl_cons]

theorem openDict_alloc (hm : Tracks m O) :
    OpenDict (m.alloc (.dict [])).2 (O ∪ {m.next}) m.next [] ∧
      Tracks (m.alloc (.dict [])).2 (O ∪ {m.next}) := by
  refine ⟨⟨⟨[], m.alloc_objs _, .nil⟩, sorted_nil _, ?_, List.nodup_singleton _⟩,
    hm.bounded.alloc _, ?_⟩
  · intro a ha
    exact .inr (List.mem_singleton.mp ha)
  · rintro a (ha | rfl)
    · exact (hm.live a ha).trans (Nat.lt_succ_self _)
    · exact Nat.lt_succ_self _

theorem setAttrKey_eq {o : Options} {attrs : List (Bytes × Bytes)}
    (hkeys : (!o.attrkey.isEmpty && !attrs.isEmpty) = true) {ab : VarBuilder} {m' : Objects}
    (hattrs : attrs.foldl (fun (ab, m) attr => VarBuilder.setDictKeyText attr.1 attr.2 m ab)
      ((b.attrBuilder.getD .new).initAsDict m) = (ab, m')) :
    b.setAttrKey o attrs m =
      (b.setDictKeyValue o.attrkey ab.object m').bind fun m =>
        some ({ b with attrBuilder := some ab }, m) := by
  have hab : ab = (ab, m').1 := rfl
  have hm' : m' = (ab, m').2 := rfl
  unfold VarBuilder.setAttrKey
  rw [if_pos hkeys, hab, hm', ← hattrs]
  rfl

theorem setAttrKey_step {o : Options} (hkey : o.attrkey ≠ []) (attrs : List (Bytes × Bytes))
    (h : OpenDict m O A es) (hm : Tracks m O) (hobj : b.object = some A) :
    ∃ b' m' es', b.setAttrKey o attrs m = some (b', m') ∧ b'.object = some A ∧
      DictStep m O A es m' es' ∧
      values es' = storeAttrs o attrs (values es) := by
  cases attrs with
  | nil =>
    refine ⟨b, m, es, ?_, hobj, .refl h hm, rfl⟩
    simp [VarBuilder.setAttrKey]
  | cons attr attrs =>
    obtain ⟨hnew, hm₁⟩ := openDict_alloc hm
    obtain ⟨ab, m₂, es₂, heq₂, hobj₂, hstep₂, hval₂⟩ := setAttrs_step (attr :: attrs) hnew hm₁
      (b := ((b.attrBuilder.getD .new).initAsDict m).1) rfl
    have ht : Touches ∅ m m₂ := by
      refine (touches_alloc ∅ m _).trans hstep₂.touches fun a ha => ?_
      exact .inr (List.mem_singleton.mp ha).ge
    have hm₂ : Tracks m₂ O := hm.fresh ht hstep₂.tracks.bounded
    -- the dict of attributes and its lists are new, so nobody else owns them
    have hgone : ∀ a ∈ m.next :: ownedLists es₂, a ∉ O := by
      intro a ha hO
      have hlt := hm.live a hO
      rcases List.mem_cons.mp ha with rfl | ha
      · exact absurd hlt (Nat.lt_irrefl _)
      · rcases hstep₂.lists a ha with hold | hge
        · cases hold
        · exact absurd hlt (Nat.not_lt.mpr ((Nat.le_succ _).trans hge))
    have hread : Reads m₂ O (some m.next) (.dict (values es₂)) :=
      hstep₂.dict.close hstep₂.tracks.bounded (Within.of_subset fun a ha => .inl (.inl ha)) hgone
    have hopen := h.fresh hm ht
    have hstep := DictStep.store hopen hm₂ hread rfl o.attrkey
    refine ⟨{ b with attrBuilder := some ab }, _, _, ?_, hobj, hstep.fresh ht, ?_⟩
    · obtain ⟨d, hd, -⟩ := hopen.obj
      have hdict : m₂.isDict b.object = true := by
        rw [hobj]
        simp only [Objects.isDict, Objects.get, Option.bind_some, hd]
      have hkeys : (!o.attrkey.isEmpty && !(attr :: attrs).isEmpty) = true := by simpa using hkey
      rw [setAttrKey_eq hkeys heq₂, hobj₂, VarBuilder.setDictKeyValue, if_pos hdict, hobj]
      rfl
    · rw [values_store, hval₂]
      rfl

variable {o : Options} {r : Handle} {v : Value}

theorem storeNewList_step (h : OpenDict m O A es) (hm : Tracks m O) (hr : Reads m O r v)
    (key : Bytes) :
    DictStep m O A es ((m.dlist r).2.dictSet key (m.dlist r).1 (some A))
      (update bytesLt key (.owned m.next [v]) (fun _ => .owned m.next [v]) es) := by
  obtain ⟨d, hd, -⟩ := h.obj
  obtain ⟨m₁, heq, hlist, hlt, ht, hb₁⟩ := dlist_eq hm.bounded r
  have hA : A < m.next := hm.live A (h.owned A List.mem_cons_self)
  have hd₁ : m₁.objs A = some (.dict d) := (ht.same A hA (Set.notMem_empty A)).trans hd
  rw [heq]
  show DictStep m O A es (m₁.dictSet key (some m.next) (some A)) _
  rw [dictSet_eq hd₁]
  refine .storeList h hm (.cons hr .nil) ?_ (hb₁.put (hA.trans hlt) _) hd (Objects.put_objs ..) ?_
  · exact (ht.mono (Set.empty_subset _)).trans (touches_put (Set.mem_singleton A) _)
      (Within.of_subset subset_rfl)
  · rw [Objects.put_objs_ne hA.ne']
    exact hlist

theorem storeWrapped_step {r₀ : Handle} {v₀ : Value} (h : OpenDict m O A es) (hm : Tracks m O)
    (hr₀ : Reads m O r₀ v₀) (hr : Reads m O r v) (key : Bytes) :
    DictStep m O A es
      (((m.dlist r₀).2.dictSet key (m.dlist r₀).1 (some A)).pushBack r (m.dlist r₀).1)
      (update bytesLt key (.owned m.next [v₀, v]) (fun _ => .owned m.next [v₀, v]) es) := by
  obtain ⟨d, hd, -⟩ := h.obj
  obtain ⟨m₁, heq, hlist, hlt, ht, hb₁⟩ := dlist_eq hm.bounded r₀
  have hA : A < m.next := hm.live A (h.owned A List.mem_cons_self)
  have hd₁ : m₁.objs A = some (.dict d) := (ht.same A hA (Set.notMem_empty A)).trans hd
  rw [heq]
  show DictStep m O A es ((m₁.dictSet key (some m.next) (some A)).pushBack r (some m.next)) _
  rw [dictSet_eq hd₁]
  have hlist₂ := (Objects.put_objs_ne (m := m₁) hA.ne'
    (.dict (update bytesLt key none (fun _ => some m.next) d))).trans hlist
  rw [pushBack_eq hlist₂]
  refine .storeList h hm (.cons hr₀ (.cons hr .nil)) ?_ ((hb₁.put (hA.trans hlt) _).put hlt _) hd ?_
    (Objects.put_objs ..)
  · have hput := (ht.mono (Set.empty_subset {A})).trans (touches_put (Set.mem_singleton A)
      (.dict (update bytesLt key none (fun _ => some m.next) d))) (Within.of_subset subset_rfl)
    refine hput.trans (touches_put (Set.mem_singleton m.next) _) fun a ha => ?_
    exact .inr (Set.mem_singleton_iff.mp ha).ge
  · rw [Objects.put_objs_ne hA.ne]
    exact Objects.put_objs ..

theorem appendToDictKeyList_step (h : OpenDict m O A es) (hm : Tracks m O)
    (hobj : b.object = some A) (hr : Reads m O r v) (hv : v.isList = false) (key : Bytes) :
    ∃ es', DictStep m O A es (b.appendToDictKeyList o key r m) es' ∧
      values es' = addChild o.explicitArray key v (values es) := by
  have hvalues := get?_values key es
  rw [VarBuilder.appendToDictKeyList, addChild, hvalues, hobj]
  obtain ⟨hget, hnone⟩ | ⟨r₀, slot, hget, hsome, hslot⟩ := h.dictGet key
  · rw [hget, hnone]
    cases hexp : o.explicitArray with
    | true => exact ⟨_, storeNewList_step h hm hr key, values_store key (.owned m.next [v]) es⟩
    | false => exact ⟨_, .store h hm hr hv key, values_store key (.value v) es⟩
  · rw [hget, hsome]
    cases slot with
    | value v₀ =>
      obtain ⟨hv₀, hr₀⟩ := hslot
      have hlist : m.isList r₀ = false := hr₀.isList_eq.trans hv₀
      refine ⟨_, ?_, (values_store key (.owned m.next [v₀, v]) es).trans ?_⟩
      · simp only [hlist]
        exact storeWrapped_step h hm hr₀ hr key
      · cases v₀ with
        | list _ => cases hv₀
        | str _ => rfl
        | dict _ => rfl
    | owned a vs =>
      obtain ⟨rfl, items, hlist, hitems⟩ := hslot
      refine ⟨_, ?_, values_store key (.owned a (vs ++ [v])) es⟩
      simp only [Objects.isList, Objects.get, Option.bind_some, hlist]
      exact .extend h hm hr hsome

end Builders

end Nkit
