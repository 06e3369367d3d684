import Nkit.Xml.MemberOrder

/-! What a priority list does to the output: it changes the order of elements, and where it names a
key again it writes elements again. -/

namespace Nkit
open OrderedMap

/-- Dicts are maps in the order of their keys. -/
inductive DynTree.InOrder : DynTree → Prop where
  | plain (type : PlainType) (w : BitVec 64) : InOrder (.plain type w)
  | string (s : Bytes) : InOrder (.string s)
  | oid (s : Bytes) : InOrder (.oid s)
  | table (columns : List Column) (rows : List (List CellTree)) : InOrder (.table columns rows)
  | list {items : List DynTree} (hitems : ∀ v ∈ items, InOrder v) : InOrder (.list items)
  | dict {entries : List (Bytes × DynTree)} (hs : Sorted bytesLt entries)
      (hvalues : ∀ e ∈ entries, InOrder e.2) :
      InOrder (.dict entries)

inductive Visits (o : Var2XmlOptions) : DynTree → DynTree → Prop where
  | refl (v : DynTree) : Visits o v v
  | item {items : List DynTree} {v u : DynTree} (hv : v ∈ items) (h : Visits o v u) :
      Visits o (.list items) u
  | member {entries : List (Bytes × DynTree)} {key : Bytes} {v u : DynTree}
      (hv : (key, v) ∈ entries)
      (hkey : o.isMember key = true) (h : Visits o v u) : Visits o (.dict entries) u

/-- No dict has anything to write under a key that the priority list names more than once. -/
def RepeatsNothing (o : Var2XmlOptions) (data : DynTree) : Prop :=
  ∀ entries, Visits o data (.dict entries) → ∀ key v, (key, v) ∈ entries → o.isMember key = true →
    1 < o.priorityList.count key → v = .list []

theorem repeatsNothing_list {o : Var2XmlOptions} {items : List DynTree} :
    RepeatsNothing o (.list items) ↔ ∀ v ∈ items, RepeatsNothing o v := by
  constructor
  · intro h v hv entries hvisit
    exact h entries (.item hv hvisit)
  · intro h entries hvisit
    cases hvisit with
    | item hv hvisit => exact h _ hv entries hvisit

theorem repeatsNothing_dict {o : Var2XmlOptions} {entries : List (Bytes × DynTree)} :
    RepeatsNothing o (.dict entries) ↔
      ∀ key v, (key, v) ∈ entries → o.isMember key = true →
        RepeatsNothing o v ∧ (1 < o.priorityList.count key → v = .list []) := by
  constructor
  · intro h key v hv hkey
    exact ⟨fun entries' hvisit => h entries' (.member hv hkey hvisit),
      h entries (.refl _) key v hv hkey⟩
  · intro h entries' hvisit
    cases hvisit with
    | refl => exact fun key v hv hkey => (h key v hv hkey).2
    | member hv hkey hvisit => exact (h _ _ hv hkey).1 entries' hvisit

namespace Converter
variable {lib : TextLib} {o : ConverterOptions}

def labelLength (o : ConverterOptions) (indent : Bytes) (e : ElementLabel) : ℕ :=
  (write o (startPuts o false indent e ++ textPuts o (some e.name) (indent ++ o.indent) e.text
    e.textLine ++ endPuts o indent e)).length

def forestLength (o : ConverterOptions) (indent : Bytes) (f : Forest ElementLabel) : ℕ :=
  f.weight (· ++ o.indent) (labelLength o) indent

theorem labelLength_pos (indent : Bytes) (e : ElementLabel) : 0 < labelLength o indent e := by
  rw [labelLength, endPuts, write_append, List.length_append, write_cons, write_cons, write_cons,
    write_nil]
  simp only [written, List.length_append, List.length_singleton]
  omega

theorem length_forestPuts (indent : Bytes) (f : Forest ElementLabel) :
    (write o (forestPuts o false indent f)).length = forestLength o indent f := by
  induction f generalizing indent with
  | nil => rfl
  | node e children rest ihc ihr =>
    rw [forestLength, Forest.weight, ← forestLength, ← forestLength, ← ihc, ← ihr, labelLength,
      forestPuts]
    simp only [write_append, List.length_append]
    omega

structure Shrinks (o : ConverterOptions) (c : Prop) (f f' : Forest ElementLabel) : Prop where
  isNil_eq : f.isNil = f'.isNil
  eq_of : c → f = f'
  lt_of : ¬c → ∀ indent, forestLength o indent f' < forestLength o indent f

namespace Shrinks
variable {c d : Prop} {f f' f'' g g' : Forest ElementLabel}

theorem refl (hc : c) (f : Forest ElementLabel) :
    Shrinks o c f f := ⟨rfl, fun _ => rfl, fun h => absurd hc h⟩

theorem congr (h : Shrinks o c f f') (hcd : c ↔ d) : Shrinks o d f f' := propext hcd ▸ h

theorem le (h : Shrinks o c f f') (indent : Bytes) :
    forestLength o indent f' ≤ forestLength o indent f := by
  by_cases hc : c
  · rw [h.eq_of hc]
  · exact (h.lt_of hc indent).le

theorem trans (h : Shrinks o c f f') (h' : Shrinks o d f' f'') : Shrinks o (c ∧ d) f f'' := by
  refine ⟨h.isNil_eq.trans h'.isNil_eq, fun hcd => (h.eq_of hcd.1).trans (h'.eq_of hcd.2),
    fun hcd indent => ?_⟩
  by_cases hc : c
  · exact (h'.lt_of (fun hd => hcd ⟨hc, hd⟩) indent).trans_le (h.le indent)
  · exact (h'.le indent).trans_lt (h.lt_of hc indent)

theorem append (h : Shrinks o c f f') (h' : Shrinks o d g g') :
    Shrinks o (c ∧ d) (f.append g) (f'.append g') := by
  refine ⟨?_, fun hcd => by rw [h.eq_of hcd.1, h'.eq_of hcd.2], fun hcd indent => ?_⟩
  · rw [Forest.isNil_append, Forest.isNil_append, h.isNil_eq, h'.isNil_eq]
  · rw [forestLength, forestLength, Forest.weight_append, Forest.weight_append]
    by_cases hc : c
    · exact Nat.add_lt_add_of_le_of_lt (h.le indent) (h'.lt_of (fun hd => hcd ⟨hc, hd⟩) indent)
    · exact Nat.add_lt_add_of_lt_of_le (h.lt_of hc indent) (h'.le indent)

theorem concat {A : Type*} {p : A → Prop} {F F' : A → Forest ElementLabel} {l : List A}
    (h : ∀ a ∈ l, Shrinks o (p a) (F a) (F' a)) :
    Shrinks o (∀ a ∈ l, p a) (Forest.concat (l.map F)) (Forest.concat (l.map F')) := by
  induction l with
  | nil => exact refl (fun _ ha => absurd ha List.not_mem_nil) _
  | cons a l ih =>
    have happend :=
      (h a List.mem_cons_self).append (ih fun a' ha' => h a' (List.mem_cons_of_mem a ha'))
    exact happend.congr List.forall_mem_cons.symm

end Shrinks

structure BodyShrinks (o : ConverterOptions) (c : Prop) (b b' : XmlBody) : Prop where
  text_eq : b.text = b'.text
  textLine_eq : b.textLine = b'.textLine
  firstEnd_eq : b.firstEnd = b'.firstEnd
  children : Shrinks o c b.children b'.children

namespace BodyShrinks
variable {c d : Prop} {b b' : XmlBody}

theorem eq_of (h : BodyShrinks o c b b') (hc : c) : b = b' := by
  obtain ⟨children, text, textLine, firstEnd⟩ := b
  obtain ⟨children', text', textLine', firstEnd'⟩ := b'
  obtain ⟨rfl, rfl, rfl, hchildren⟩ := h
  exact congrArg (XmlBody.mk · text textLine firstEnd) (hchildren.eq_of hc)

theorem congr (h : BodyShrinks o c b b') (hcd : c ↔ d) : BodyShrinks o d b b' := propext hcd ▸ h

theorem element (h : BodyShrinks o c b b') (name : Bytes) (attrs : List (Bytes × Bytes)) :
    Shrinks o c (b.element name attrs .nil) (b'.element name attrs .nil) := by
  refine ⟨rfl, fun hc => by rw [h.eq_of hc], fun hc indent => ?_⟩
  rw [XmlBody.element, XmlBody.element, h.text_eq, h.textLine_eq, h.firstEnd_eq,
    h.children.isNil_eq, forestLength, forestLength, Forest.weight, Forest.weight, Forest.weight]
  have hlt := h.children.lt_of hc (indent ++ o.indent)
  rw [forestLength, forestLength] at hlt
  omega

end BodyShrinks

theorem shrinks_once {entries : List (Bytes × DynTree)} (hs : Sorted bytesLt entries)
    (F : Bytes → Forest ElementLabel) :
    Shrinks o (∀ key ∈ o.memberKeys entries, 1 < o.priorityList.count key → F key = .nil)
      (Forest.concat ((o.memberKeys entries).map F))
      (Forest.concat (((o.withPriority o.priorityList.eraseDups).memberKeys entries).map F)) := by
  refine ⟨?_, fun hnil => ?_, fun hrepeat indent => ?_⟩
  · rw [Forest.isNil_concat, Forest.isNil_concat, Bool.eq_iff_iff, List.all_eq_true,
      List.all_eq_true, List.forall_mem_map, List.forall_mem_map]
    simp only [Var2XmlOptions.mem_memberKeys_once hs]
  · have hfold :=
      Var2XmlOptions.foldr_memberKeys (f := fun key => (F key).append) (fun key hkey hcount f => by
      rw [hnil key hkey hcount, Forest.nil_append]) .nil
    rw [Forest.concat, Forest.concat, List.foldr_map, List.foldr_map]
    exact hfold.symm
  · push Not at hrepeat
    obtain ⟨key, hkey, hcount, hne⟩ := hrepeat
    have hpos : 0 < forestLength o indent (F key) := by
      apply Nat.pos_of_ne_zero
      rw [forestLength, ne_eq, Forest.weight_eq_zero labelLength_pos]
      exact hne
    have hlt := Var2XmlOptions.sum_memberKeys_lt (g := fun key => forestLength o indent (F key))
      hkey hcount hpos
    rw [forestLength, forestLength, Forest.weight_concat, Forest.weight_concat, List.map_map,
      List.map_map]
    exact hlt

def bodyUnder (lib : TextLib) (o : ConverterOptions) (keys : List Bytes) : Bytes → DynTree →
    XmlBody :=
  bodyOf lib o (o.withPriority keys).members

def memberUnder (lib : TextLib) (o : ConverterOptions) (keys : List Bytes) (key : Bytes)
    (v : DynTree) : Forest ElementLabel :=
  if v.isList then (bodyUnder lib o keys key v).children
    else (bodyUnder lib o keys key v).element key (attrTexts lib o v) .nil

variable {keys : List Bytes}

theorem memberForests_eq (entries : List (Bytes × DynTree)) :
    memberForests lib o (o.withPriority keys).members entries = entries.map fun e =>
      (e.1, memberUnder lib o keys e.1 e.2) := by
  induction entries with
  | nil => rw [memberForests, List.map_nil]
  | cons e entries ih =>
    obtain ⟨key, v⟩ := e
    rw [memberForests, List.map_cons, ih]
    rfl

theorem itemForest_eq (name : Bytes) (items : List DynTree) :
    itemForest lib o (o.withPriority keys).members name items =
      Forest.concat
        (items.map fun v => (bodyUnder lib o keys [] v).element name (attrTexts lib o v) .nil) := by
  induction items with
  | nil => rw [itemForest, List.map_nil, Forest.concat_nil]
  | cons v items ih =>
    rw [itemForest, ih, List.map_cons, Forest.concat_cons]
    rfl

def forestAt (lib : TextLib) (o : ConverterOptions) (keys : List Bytes)
    (entries : List (Bytes × DynTree)) (key : Bytes) :
    Forest ElementLabel := ((get? bytesLt key entries).map (memberUnder lib o keys key)).getD .nil

theorem bodyUnder_dict {entries : List (Bytes × DynTree)} (hs : Sorted bytesLt entries)
    (itemName : Bytes) :
    bodyUnder lib o keys itemName (.dict entries) =
      dictBody lib o entries ((o.withPriority keys).memberKeys entries).isEmpty
        (Forest.concat
          (((o.withPriority keys).memberKeys entries).map (forestAt lib o keys entries))) := by
  rw [bodyUnder, bodyOf, memberForests_eq, Var2XmlOptions.members_isEmpty hs _ .nil,
    Var2XmlOptions.members_eq hs _ .nil]
  rfl

theorem bodyUnder_list (itemName : Bytes) (items : List DynTree) :
    bodyUnder lib o keys itemName (.list items) =
      ⟨Forest.concat
        (items.map fun v => (bodyUnder lib o keys [] v).element (if itemName.isEmpty then o.itemName
          else itemName)
        (attrTexts lib o v) .nil), [], false, none⟩ := by
  rw [bodyUnder, bodyOf, itemForest_eq]
  rfl

theorem memberUnder_nil {key : Bytes} {v : DynTree} :
    memberUnder lib o keys key v = .nil ↔ v = .list [] := by
  rw [memberUnder]
  match v with
  | .list [] =>
    rw [bodyUnder_list]
    exact ⟨fun _ => rfl, fun _ => rfl⟩
  | .list (v :: items) =>
    rw [bodyUnder_list]
    constructor
    · intro h
      cases h
    · intro h
      cases h
  | .dict _ | .plain .. | .string _ | .oid _ | .table .. =>
    constructor
    · intro h
      cases h
    · intro h
      cases h

theorem BodyShrinks.member {c : Prop} {keys' : List Bytes} {v : DynTree}
    (h : ∀ itemName, BodyShrinks o c (bodyUnder lib o keys itemName v)
      (bodyUnder lib o keys' itemName v)) (key : Bytes) :
    Shrinks o c (memberUnder lib o keys key v) (memberUnder lib o keys' key v) := by
  rw [memberUnder, memberUnder]
  split_ifs
  · exact (h key).children
  · exact (h key).element key _

theorem BodyShrinks.dict {c : Prop} {f f' : Forest ElementLabel} (h : Shrinks o c f f')
    (entries : List (Bytes × DynTree)) (dictIsEmpty : Bool) :
    BodyShrinks o c (dictBody lib o entries dictIsEmpty f)
      (dictBody lib o entries dictIsEmpty f') := by
  rw [dictBody, dictBody]
  cases get? bytesLt o.textKey entries with
  | none => exact ⟨rfl, rfl, rfl, h⟩
  | some text => exact ⟨rfl, rfl, rfl, h⟩

theorem forestAt_eq {entries : List (Bytes × DynTree)} (hs : Sorted bytesLt entries) {key : Bytes}
    {v : DynTree} (hv : (key, v) ∈ entries) :
    forestAt lib o keys entries key = memberUnder lib o keys key v := by
  have hget := get?_eq_some_of_mem bytesLt_strictWeak hs hv
  rw [forestAt, hget, Option.map_some, Option.getD_some]

theorem value_eq {entries : List (Bytes × DynTree)} (hs : Sorted bytesLt entries) {key : Bytes}
    {v v' : DynTree} (hv : (key, v) ∈ entries) (hv' : (key, v') ∈ entries) : v = v' := by
  have hget := get?_eq_some_of_mem bytesLt_strictWeak hs hv
  have hget' := get?_eq_some_of_mem bytesLt_strictWeak hs hv'
  exact Option.some.inj (hget.symm.trans hget')

theorem body_shrinks {v : DynTree} (hv : v.InOrder) (itemName : Bytes) :
    BodyShrinks o (RepeatsNothing o.toVar2XmlOptions v) (bodyUnder lib o o.priorityList itemName v)
      (bodyUnder lib o o.priorityList.eraseDups itemName v) := by
  induction hv generalizing itemName with
  | plain | string | oid | table =>
    exact ⟨rfl, rfl, rfl, .refl (fun entries hvisit => nomatch hvisit) _⟩
  | @list items hitems ih =>
    rw [bodyUnder_list, bodyUnder_list]
    have hchildren := Shrinks.concat fun v hv =>
      (ih v hv []).element (if itemName.isEmpty then o.itemName else itemName) (attrTexts lib o v)
    exact ⟨rfl, rfl, rfl, hchildren.congr repeatsNothing_list.symm⟩
  | @dict entries hs hvalues ih =>
    have hvalue : ∀ key ∈ (o.withPriority o.priorityList.eraseDups).memberKeys entries,
        Shrinks o (∀ v, (key, v) ∈ entries → RepeatsNothing o.toVar2XmlOptions v)
          (forestAt lib o o.priorityList entries key)
          (forestAt lib o o.priorityList.eraseDups entries key) := by
      intro key hkey
      obtain ⟨-, v, hv⟩ := (Var2XmlOptions.mem_memberKeys hs).mp hkey
      rw [forestAt_eq hs hv, forestAt_eq hs hv]
      apply (BodyShrinks.member (ih (key, v) hv) key).congr
      exact ⟨fun h v' hv' => value_eq hs hv hv' ▸ h, fun h => h v hv⟩
    rw [bodyUnder_dict hs, bodyUnder_dict hs,
      Var2XmlOptions.memberKeys_isEmpty hs _ o.priorityList.eraseDups]
    apply (BodyShrinks.dict ((shrinks_once hs _).trans (Shrinks.concat hvalue)) entries _).congr
    rw [repeatsNothing_dict]
    constructor
    · rintro ⟨hrepeat, hvalues⟩ key v hv hkey
      have hmem : key ∈ o.memberKeys entries := (Var2XmlOptions.mem_memberKeys hs).mpr ⟨hkey, v, hv⟩
      refine ⟨hvalues key ((Var2XmlOptions.mem_memberKeys_once hs).mpr hmem) v hv, fun hcount => ?_⟩
      have hnil := hrepeat key hmem hcount
      rw [forestAt_eq hs hv] at hnil
      exact memberUnder_nil.mp hnil
    · intro h
      constructor
      · intro key hmem hcount
        obtain ⟨hkey, v, hv⟩ := (Var2XmlOptions.mem_memberKeys hs).mp hmem
        rw [forestAt_eq hs hv]
        exact memberUnder_nil.mpr ((h key v hv hkey).2 hcount)
      · intro key hmem v hv
        obtain ⟨hkey, -⟩ := (Var2XmlOptions.mem_memberKeys hs).mp hmem
        exact (h key v hv hkey).1

structure BodyPerm (b b' : XmlBody) : Prop where
  text_eq : b.text = b'.text
  textLine_eq : b.textLine = b'.textLine
  firstEnd_eq : b.firstEnd = b'.firstEnd
  children : b.children.Perm b'.children

namespace BodyPerm
variable {b b' : XmlBody} {keys' : List Bytes}

theorem element (h : BodyPerm b b') (name : Bytes) (attrs : List (Bytes × Bytes)) :
    (b.element name attrs .nil).Perm (b'.element name attrs .nil) := by
  rw [XmlBody.element, XmlBody.element, h.text_eq, h.textLine_eq, h.firstEnd_eq,
    h.children.isNil_eq]
  exact .node _ h.children .nil

theorem member {v : DynTree}
    (h : ∀ itemName, BodyPerm (bodyUnder lib o keys itemName v) (bodyUnder lib o keys' itemName v))
    (key : Bytes) : (memberUnder lib o keys key v).Perm (memberUnder lib o keys' key v) := by
  rw [memberUnder, memberUnder]
  split_ifs
  · exact (h key).children
  · exact (h key).element key _

theorem dict {f f' : Forest ElementLabel} (h : f.Perm f') (entries : List (Bytes × DynTree))
    (dictIsEmpty : Bool) :
    BodyPerm (dictBody lib o entries dictIsEmpty f) (dictBody lib o entries dictIsEmpty f') := by
  rw [dictBody, dictBody]
  cases get? bytesLt o.textKey entries with
  | none => exact ⟨rfl, rfl, rfl, h⟩
  | some text => exact ⟨rfl, rfl, rfl, h⟩

end BodyPerm

theorem concat_perm {A : Type*} {F F' : A → Forest ElementLabel} {l : List A}
    (h : ∀ a ∈ l, (F a).Perm (F' a)) :
    (Forest.concat (l.map F)).Perm (Forest.concat (l.map F')) := by
  induction l with
  | nil => exact .nil
  | cons a l ih =>
    exact .append (h a List.mem_cons_self) (ih fun a' ha' => h a' (List.mem_cons_of_mem a ha'))

theorem body_perm {v : DynTree} (hv : v.InOrder) (itemName : Bytes) :
    BodyPerm (bodyUnder lib o o.priorityList.eraseDups itemName v)
      (bodyUnder lib o [] itemName v) := by
  induction hv generalizing itemName with
  | plain | string | oid | table => exact ⟨rfl, rfl, rfl, .refl _⟩
  | @list items hitems ih =>
    rw [bodyUnder_list, bodyUnder_list]
    exact ⟨rfl, rfl, rfl, concat_perm fun v hv => (ih v hv []).element _ _⟩
  | @dict entries hs hvalues ih =>
    rw [bodyUnder_dict hs, bodyUnder_dict hs, Var2XmlOptions.memberKeys_isEmpty hs _ []]
    apply BodyPerm.dict
    have hvalue : ∀ key ∈ (o.withPriority o.priorityList.eraseDups).memberKeys entries,
        (forestAt lib o o.priorityList.eraseDups entries key).Perm
          (forestAt lib o [] entries key) := by
      intro key hkey
      obtain ⟨-, v, hv⟩ := (Var2XmlOptions.mem_memberKeys hs).mp hkey
      rw [forestAt_eq hs hv, forestAt_eq hs hv]
      exact BodyPerm.member (ih (key, v) hv) key
    apply (concat_perm hvalue).trans
    exact .concat_of_perm ((o.memberKeys_perm hs).map _)

theorem length_begin (indent : Bytes) {f : Forest ElementLabel} (hf : f.isNil = false) :
    (write o (forestPuts o true indent f)).length + o.newline.length = forestLength o indent f +
      (prolog o).length := by
  cases f with
  | nil => cases hf
  | node e children rest =>
    rw [← length_forestPuts, forestPuts, forestPuts, startPuts, startPuts]
    simp only [write_append, write_cons, written, List.cons_append, List.length_append, if_true,
      Bool.false_eq_true, if_false]
    omega

theorem document_lt {c : Prop} {b b' : XmlBody} (h : BodyShrinks o c b b') (hc : ¬c)
    (attrs : List (Bytes × Bytes)) :
    (write o (documentPuts o attrs b')).length < (write o (documentPuts o attrs b)).length := by
  have hbegin : ∀ {f f' : Forest ElementLabel}, Shrinks o c f f' →
      (write o (forestPuts o true [] f')).length < (write o (forestPuts o true [] f)).length := by
    intro f f' hshrinks
    have hlt := hshrinks.lt_of hc []
    have hnil : f.isNil = false := by
      cases f with
      | nil => exact absurd hlt (Nat.not_lt_zero _)
      | node => rfl
    have hlength := length_begin (o := o) [] hnil
    have hlength' := length_begin (o := o) [] (hshrinks.isNil_eq ▸ hnil)
    omega
  rw [documentPuts, documentPuts]
  split_ifs
  · rw [h.text_eq, h.textLine_eq, write_append, write_append, List.length_append,
      List.length_append]
    exact Nat.add_lt_add_right (hbegin h.children) _
  · exact hbegin (h.element o.rootName attrs)

variable {find : Bytes → Option Transcoder} {settings : ConverterSettings} {data : DynTree}

theorem create_withoutPriority (find : Bytes → Option Transcoder) (settings : ConverterSettings) :
    ConverterOptions.create find { settings with priority := [] } =
      (ConverterOptions.create find settings).map fun o => { o with priorityList := [] } := by
  rw [ConverterOptions.create, ConverterOptions.create]
  have hsame : ({ settings with priority := [] } : ConverterSettings).transcoder find =
    settings.transcoder find := rfl
  rw [hsame]
  cases settings.transcoder find <;> rfl

theorem forestPuts_withoutPriority (begin : Bool) (indent : Bytes) (f : Forest ElementLabel) :
    forestPuts { o with priorityList := [] } begin indent f = forestPuts o begin indent f := by
  induction f generalizing begin indent with
  | nil => rfl
  | node e children rest ihc ihr =>
    rw [forestPuts, forestPuts, ihc, ihr]
    rfl

section
variable {arrange : List (Bytes × Forest ElementLabel) → List (Bytes × Forest ElementLabel)}

mutual

theorem bodyOf_withoutPriority (itemName : Bytes) (v : DynTree) :
    bodyOf lib { o with priorityList := [] } arrange itemName v =
      bodyOf lib o arrange itemName v := by
  match v with
  | .dict entries =>
    rw [bodyOf, bodyOf, memberForests_withoutPriority entries]
    rfl
  | .list items =>
    rw [bodyOf, bodyOf, itemForest_withoutPriority _ items]
  | .plain .. | .string _ | .oid _ | .table .. => rfl

theorem memberForests_withoutPriority (entries : List (Bytes × DynTree)) :
    memberForests lib { o with priorityList := [] } arrange entries =
      memberForests lib o arrange entries := by
  match entries with
  | [] => rw [memberForests, memberForests]
  | (key, v) :: entries =>
    rw [memberForests, memberForests, bodyOf_withoutPriority key v,
      memberForests_withoutPriority entries]
    rfl

theorem itemForest_withoutPriority (name : Bytes) (items : List DynTree) :
    itemForest lib { o with priorityList := [] } arrange name items =
      itemForest lib o arrange name items := by
  match items with
  | [] => rw [itemForest, itemForest]
  | v :: items =>
    rw [itemForest, itemForest, bodyOf_withoutPriority [] v, itemForest_withoutPriority name items]
    rfl

end

end

theorem processWith_withoutPriority (data : DynTree) :
    processWith lib { o with priorityList := [] } data =
      if data.isDict || data.isList then
        some (.ok
          (write o (documentPuts o (attrTexts lib o data) (bodyUnder lib o [] o.itemName data))))
      else some (.error (ascii "Variable MUST be object (dict) or list")) := by
  have hputs : ∀ attrs b, documentPuts { o with priorityList := [] } attrs b =
    documentPuts o attrs b := by
    intro attrs b
    rw [documentPuts, documentPuts, forestPuts_withoutPriority, forestPuts_withoutPriority]
    rfl
  rw [processWith_eq, hputs, bodyOf_withoutPriority]
  rfl

/-- With the priority list `Process` fails as without it, or its output has the same elements in
another order: in each dict those under the keys of the list come first, in the order of the list,
and every key has its elements once. -/
def Reorders (lib : TextLib) (find : Bytes → Option Transcoder) (settings : ConverterSettings)
    (data : DynTree) : Prop :=
  (∃ message, process lib find settings data = some (.error message) ∧
    process lib find { settings with priority := [] } data = some (.error message)) ∨
  ∃ o body body₀, ConverterOptions.create find settings = .ok o ∧
    body = bodyUnder lib o settings.priority.eraseDups o.itemName data ∧
      body₀ = bodyUnder lib o [] o.itemName data ∧
    BodyPerm body body₀ ∧
    process lib find settings data =
      some (.ok (write o (documentPuts o (attrTexts lib o data) body))) ∧
    process lib find { settings with priority := [] } data =
      some (.ok (write o (documentPuts o (attrTexts lib o data) body₀)))

theorem priorityList_create (h : ConverterOptions.create find settings = .ok o) :
    o.priorityList = settings.priority := by
  rw [ConverterOptions.create] at h
  cases ht : settings.transcoder find with
  | error message =>
    rw [ht] at h
    cases h
  | ok t =>
    rw [ht] at h
    cases h
    rfl

theorem repeatsNothing_of_scalar {o : Var2XmlOptions} (h : (data.isDict || data.isList) = false) :
    RepeatsNothing o data := by
  intro entries hvisit
  cases hvisit with
  | refl => cases h
  | item => cases h
  | member => cases h

theorem Reorders.repeatsNothing (h : Reorders lib find settings data) (hdata : data.InOrder)
    (hcreate : ConverterOptions.create find settings = .ok o) :
    RepeatsNothing o.toVar2XmlOptions data := by
  have hprocess : process lib find settings data = processWith lib o data := by
    rw [process, hcreate]
  by_cases hscalar : (data.isDict || data.isList) = true
  · rw [Reorders, hprocess, processWith_eq, if_pos hscalar, ← priorityList_create hcreate] at h
    rcases h with ⟨message, h, -⟩ | ⟨o', body, body₀, ho', rfl, -, -, hout, -⟩
    · cases h
    · obtain rfl := Except.ok.inj (hcreate.symm.trans ho')
      by_contra hrepeats
      have hshrinks : BodyShrinks o _ (bodyUnder lib o o.priorityList o.itemName data) _ :=
        body_shrinks hdata o.itemName
      have hlt := document_lt hshrinks hrepeats (attrTexts lib o data)
      have heq := Except.ok.inj (Option.some.inj hout)
      rw [← heq] at hlt
      exact Nat.lt_irrefl _ hlt
  · exact repeatsNothing_of_scalar (Bool.eq_false_iff.mpr hscalar)

/-- The priority list reorders, unless something stands under a key that it names again. -/
theorem reorders_iff (lib : TextLib) (find : Bytes → Option Transcoder)
    (settings : ConverterSettings) (hdata : data.InOrder) :
    Reorders lib find settings data ↔
      ∀ o, ConverterOptions.create find settings = .ok o →
        RepeatsNothing o.toVar2XmlOptions data := by
  constructor
  · intro h o hcreate
    exact h.repeatsNothing hdata hcreate
  · intro h
    cases hcreate : ConverterOptions.create find settings with
    | error message =>
      refine .inl ⟨message, by rw [process, hcreate], ?_⟩
      rw [process, create_withoutPriority, hcreate]
      rfl
    | ok o =>
      have hprocess : process lib find settings data = processWith lib o data := by
        rw [process, hcreate]
      have hprocess₀ : process lib find { settings with priority := [] } data =
        processWith lib { o with priorityList := [] } data := by
        rw [process, create_withoutPriority, hcreate]
        rfl
      rw [Reorders, hprocess, hprocess₀, processWith_eq, processWith_withoutPriority,
        ← priorityList_create hcreate]
      by_cases hscalar : (data.isDict || data.isList) = true
      · rw [if_pos hscalar, if_pos hscalar]
        have hshrinks : BodyShrinks o _ (bodyUnder lib o o.priorityList o.itemName data) _ :=
          body_shrinks hdata o.itemName
        have hsame := hshrinks.eq_of (h o hcreate)
        refine .inr ⟨o, _, _, hcreate, rfl, rfl, body_perm hdata o.itemName, ?_, rfl⟩
        rw [← hsame]
        rfl
      · rw [if_neg hscalar, if_neg hscalar]
        exact .inl ⟨_, rfl, rfl⟩

/-- The dict `{"a": "1", "b": "2"}`. -/
def twoMembers : DynTree :=
  .dict [(ascii "a", .string (ascii "1")), (ascii "b", .string (ascii "2"))]

theorem twoMembers_inOrder : twoMembers.InOrder := by
  refine .dict (sorted_iff_keys.mpr (by decide)) fun e he => ?_
  simp only [List.mem_cons, List.not_mem_nil, or_false] at he
  rcases he with rfl | rfl
  all_goals exact .string _

theorem reorders_iff_two :
    Reorders .none (fun _ => none) (.ofPriority [ascii "b", ascii "a"]) twoMembers := by
  refine (reorders_iff _ _ _ twoMembers_inOrder).mpr fun o hcreate entries _ key v _ _ hcount => ?_
  have hnodup : ([ascii "b", ascii "a"] : List Bytes).Nodup := by decide
  have hle := List.nodup_iff_count_le_one.mp hnodup key
  rw [priorityList_create hcreate] at hcount
  exact absurd hcount (Nat.not_lt.mpr hle)

/-- The member `a` is written twice. -/
theorem priority_repeats :
    ¬Reorders .none (fun _ => none) (.ofPriority [ascii "a", ascii "a"]) twoMembers := by
  intro h
  have hrepeats :=
    h.repeatsNothing twoMembers_inOrder rfl _ (.refl _) (ascii "a") (.string (ascii "1"))
      List.mem_cons_self rfl (by decide)
  cases hrepeats

example : process .none (fun _ => none) (.ofPriority [ascii "a", ascii "a"]) twoMembers =
    some (.ok (ascii "<a>1</a><a>1</a><b>2</b>")) := by rfl

end Converter

end Nkit
