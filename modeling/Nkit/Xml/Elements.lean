import Nkit.Base.Forest
import Nkit.Xml.Converter
import Nkit.Xml.Written

/-! The elements that a value is written as, and what the converter puts into the output for them.
-/

namespace Nkit
open OrderedMap

structure ElementLabel where
  name : Bytes
  attrs : List (Bytes × Bytes)
  text : Bytes
  textLine : Bool
  endLine : Bool

/-- What stands between the tags of an element: its elements, its text, whether the text has a line
of its own, and whether the text decides about the line of the end tag. -/
structure XmlBody where
  children : Forest ElementLabel
  text : Bytes
  textLine : Bool
  firstEnd : Option Bool

def XmlBody.element (name : Bytes) (attrs : List (Bytes × Bytes)) (b : XmlBody)
    (rest : Forest ElementLabel) : Forest ElementLabel :=
  .node ⟨name, attrs, b.text, b.textLine, !b.firstEnd.getD b.children.isNil⟩ b.children rest

inductive Put where
  | raw (text : Bytes)
  | name (text : Bytes)
  | text (text : Bytes)
  | cdata (text : Bytes)

namespace Converter
variable (lib : TextLib) (o : ConverterOptions)

def attrTexts (data : DynTree) : List (Bytes × Bytes) :=
  (attributes o data).map fun a => (a.1, dataText lib o a.2)

def dictBody (entries : List (Bytes × DynTree)) (dictIsEmpty : Bool)
    (children : Forest ElementLabel) : XmlBody :=
  match get? bytesLt o.textKey entries with
  | some text => ⟨children, dataText lib o text, !dictIsEmpty, some dictIsEmpty⟩
  | none => ⟨children, [], false, none⟩

section
-- the members of a dict, in the order in which they are written
variable (arrange : List (Bytes × Forest ElementLabel) → List (Bytes × Forest ElementLabel))

mutual

def bodyOf (itemName : Bytes) : DynTree → XmlBody
  | .dict entries =>
    let members := arrange (memberForests entries)
    dictBody lib o entries members.isEmpty (Forest.concat (members.map Prod.snd))
  | .list items =>
    ⟨itemForest (if itemName.isEmpty then o.itemName else itemName) items, [], false, none⟩
  | data => ⟨.nil, dataText lib o data, false, none⟩

def memberForests : List (Bytes × DynTree) → List (Bytes × Forest ElementLabel)
  | [] => []
  | (key, v) :: entries =>
    (key, if v.isList then (bodyOf key v).children
      else (bodyOf key v).element key (attrTexts lib o v) .nil) :: memberForests entries

def itemForest (name : Bytes) : List DynTree → Forest ElementLabel
  | [] => .nil
  | v :: items => (bodyOf [] v).element name (attrTexts lib o v) (itemForest name items)

end

end

def written (transcoder : Option Transcoder) : Put → Bytes
  | .raw text => text
  | .name text => appendTranscoded transcoder text
  | .text text => putText transcoder text
  | .cdata text =>
    cdataBegin ++ (cdataPieces 0 [] text).flatMap (CdataPiece.write transcoder) ++ cdataEnd

def attrPuts (attr : Bytes × Bytes) : List Put :=
  [.raw [32], .name attr.1, .raw (ascii "=\""), .text attr.2, .raw [34]]

def textPuts (top : Option Bytes) (indent text : Bytes) (line : Bool) : List Put :=
  if text.isEmpty then []
  else (if line then [.raw (o.newline ++ indent)] else []) ++
    [if asCdata o top then .cdata text else .text text]

def startPuts (begin : Bool) (indent : Bytes) (e : ElementLabel) : List Put :=
  .raw ((if begin then prolog o else o.newline) ++ indent ++ [60]) :: .name e.name ::
    e.attrs.flatMap attrPuts ++ [.raw [62]]

def endPuts (indent : Bytes) (e : ElementLabel) : List Put :=
  [.raw ((if e.endLine then o.newline ++ indent else []) ++ ascii "</"), .name e.name, .raw [62]]

def forestPuts : Bool → Bytes → Forest ElementLabel → List Put
  | _, _, .nil => []
  | begin, indent, .node e children rest =>
    startPuts o begin indent e ++ forestPuts false (indent ++ o.indent) children ++
      textPuts o (some e.name) (indent ++ o.indent) e.text e.textLine ++ endPuts o indent e ++
        forestPuts false indent rest

def documentPuts (attrs : List (Bytes × Bytes)) (b : XmlBody) : List Put :=
  if o.rootName.isEmpty then forestPuts o true [] b.children ++ textPuts o none [] b.text b.textLine
  else forestPuts o true [] (b.element o.rootName attrs .nil)

def write (puts : List Put) : Bytes := puts.flatMap (written o.transcoder)

variable {lib o}

theorem write_append (puts puts' : List Put) :
    write o (puts ++ puts') = write o puts ++ write o puts' := List.flatMap_append

theorem write_cons (put : Put) (puts : List Put) :
    write o (put :: puts) = written o.transcoder put ++ write o puts := List.flatMap_cons

@[simp] theorem write_nil : write o [] = [] := rfl

variable (o) in
def wroteForest (f : Forest ElementLabel) (s : Var2XmlConverter) : Var2XmlConverter :=
  { s with
    firstEndAfterBegin := s.firstEndAfterBegin && f.isNil
    begin := s.begin && f.isNil
    out := s.out ++ write o (forestPuts o s.begin s.currentIndent f) }

variable (o) in
def wroteBody (b : XmlBody) (s : Var2XmlConverter) : Var2XmlConverter :=
  let s := wroteForest o b.children s
  { s with
    firstEndAfterBegin := b.firstEnd.getD s.firstEndAfterBegin
    out := s.out ++ write o (textPuts o s.path.head? s.currentIndent b.text b.textLine) }

theorem forestPuts_append (begin : Bool) (indent : Bytes) (f g : Forest ElementLabel) :
    forestPuts o begin indent (f.append g) = forestPuts o begin indent f ++
      forestPuts o (begin && f.isNil) indent g := by
  induction f generalizing begin with
  | nil =>
    rw [Forest.nil_append, forestPuts, List.nil_append]
    exact congrArg (forestPuts o · indent g) (Bool.and_true begin).symm
  | node e children rest _ ih =>
    rw [Forest.append, forestPuts, forestPuts, ih, List.append_assoc]
    have hfalse : (begin && (Forest.node e children rest).isNil) = false := Bool.and_false begin
    rw [hfalse, Bool.false_and]
    simp only [List.append_assoc]

theorem wroteForest_append (f g : Forest ElementLabel) (s : Var2XmlConverter) :
    wroteForest o (f.append g) s = wroteForest o g (wroteForest o f s) := by
  simp only [wroteForest, Forest.isNil_append, forestPuts_append, write_append, Bool.and_assoc,
    List.append_assoc]

theorem wroteForest_nil (s : Var2XmlConverter) : wroteForest o .nil s = s := by
  simp only [wroteForest, Forest.isNil, Bool.and_true, forestPuts, write_nil, List.append_nil]

theorem putContent_eq (text : Bytes) (newline : Bool) (s : Var2XmlConverter) :
    putContent o text newline s =
      some { s with
        out := s.out ++ write o (textPuts o s.path.head? s.currentIndent text newline) } := by
  rw [putContent, textPuts]
  by_cases hempty : text.isEmpty
  · rw [if_pos hempty, if_pos hempty, write_nil, List.append_nil]
  · rw [if_neg hempty, if_neg hempty]
    -- the white space in front of the text does not touch the path
    have hline : (if newline then s.append (o.newline ++ s.currentIndent) else s) =
        s.append (write o (if newline then [.raw (o.newline ++ s.currentIndent)] else [])) := by
      cases newline with
      | true => simp only [if_true, write_cons, write_nil, written, List.append_nil]
      | false =>
        simp only [Bool.false_eq_true, if_false, write_nil, Var2XmlConverter.append,
          List.append_nil]
    rw [hline]
    show (if asCdata o s.path.head? then _ else _) = _
    by_cases hcdata : asCdata o s.path.head?
    · rw [if_pos hcdata, if_pos hcdata, CdataLoop.putCdata_eq, write_append, write_cons, write_nil,
        List.append_nil]
      simp only [written, Var2XmlConverter.append, Option.bind_eq_bind, Option.bind_some,
        List.append_assoc]
    · rw [if_neg hcdata, if_neg hcdata, write_append, write_cons, write_nil, List.append_nil]
      simp only [written, Var2XmlConverter.append, List.append_assoc]

theorem write_attrPuts (attrs : List (Bytes × DynTree)) :
    attrs.flatMap (putAttribute lib o) =
      write o ((attrs.map fun a => (a.1, dataText lib o a.2)).flatMap attrPuts) := by
  induction attrs with
  | nil => rfl
  | cons a attrs ih =>
    rw [List.flatMap_cons, List.map_cons, List.flatMap_cons, write_append, ← ih]
    simp only [putAttribute, attrPuts, write_cons, write_nil, written, List.append_nil,
      List.append_assoc, List.cons_append, List.nil_append]

theorem element_eq (name : Bytes) (v : DynTree) (b : XmlBody) (s : Var2XmlConverter) :
    endElement o (wroteBody o b (beginElement lib o name v s)) =
      some (wroteForest o (b.element name (attrTexts lib o v) .nil) s) := by
  have hcut : (s.currentIndent ++ o.indent).take
      ((s.currentIndent ++ o.indent).length - o.indent.length) = s.currentIndent := by
    rw [List.length_append, Nat.add_sub_cancel, List.take_left]
  simp only [endElement, wroteBody, wroteForest, beginElement, hcut, Option.some.injEq]
  simp only [Forest.isNil, Bool.and_false, Bool.false_and, Bool.true_and, XmlBody.element,
    forestPuts, startPuts, endPuts, write_append, write_cons, write_nil, written, write_attrPuts,
    attrTexts, List.head?_cons, List.append_assoc, List.cons_append, List.nil_append,
    List.append_nil]

theorem isEmpty_of_forall₂ {α β : Type*} {R : α → β → Prop} {l : List α} {l' : List β}
    (h : List.Forall₂ R l l') :
    l.isEmpty = l'.isEmpty := by
  cases h <;> rfl

theorem foldlM_eq {l : List (Bytes × (Var2XmlConverter → Option Var2XmlConverter))}
    {l' : List (Bytes × Forest ElementLabel)}
    (h : List.Forall₂ (fun m m' => m.1 = m'.1 ∧ ∀ s, m.2 s = some (wroteForest o m'.2 s)) l l')
    (s : Var2XmlConverter) :
    l.foldlM (fun s m => m.2 s) s = some (wroteForest o (Forest.concat (l'.map Prod.snd)) s) := by
  induction h generalizing s with
  | nil =>
    rw [List.map_nil, Forest.concat_nil, wroteForest_nil]
    rfl
  | cons hm _ ih =>
    rw [List.foldlM_cons, hm.2, Option.bind_eq_bind, Option.bind_some, ih, List.map_cons,
      Forest.concat_cons, wroteForest_append]

theorem putDictText_eq (entries : List (Bytes × DynTree)) (dictIsEmpty : Bool)
    (f : Forest ElementLabel) (s : Var2XmlConverter) :
    putDictText lib o entries (!dictIsEmpty) (wroteForest o f s) =
      some (wroteBody o (dictBody lib o entries dictIsEmpty f) s) := by
  rw [putDictText, dictBody]
  cases get? bytesLt o.textKey entries with
  | none =>
    simp only [wroteBody, textPuts, List.isEmpty_nil, if_true, write_nil, List.append_nil,
      Option.getD_none]
  | some text =>
    simp only [putContent_eq, wroteBody, Option.bind_eq_bind, Option.bind_some, Option.getD_some,
      Bool.not_not]

mutual

/-- `Convert` writes the body of the value. -/
theorem convert_eq (itemName : Bytes) (v : DynTree) (s : Var2XmlConverter) :
    convert lib o itemName v s = some (wroteBody o (bodyOf lib o o.members itemName v) s) := by
  match v with
  | .dict entries =>
    have hmembers := members_forall₂ (o := o.toVar2XmlOptions)
      (R := fun (f : Var2XmlConverter → Option Var2XmlConverter) forest => ∀ s,
        f s = some (wroteForest o forest s))
      (convertMembers_eq entries)
    rw [convert, bodyOf, foldlM_eq hmembers, Option.bind_eq_bind, Option.bind_some,
      isEmpty_of_forall₂ hmembers]
    exact putDictText_eq entries _ _ s
  | .list items =>
    rw [convert, bodyOf, convertItems_eq]
    simp only [wroteBody, textPuts, List.isEmpty_nil, if_true, write_nil, List.append_nil,
      Option.getD_none]
  | .plain .. | .string _ | .oid _ | .table .. =>
    rw [convert, bodyOf, putContent_eq]
    · simp only [wroteBody, wroteForest_nil, Option.getD_none]
    all_goals
      intros
      contradiction

theorem convertMembers_eq (entries : List (Bytes × DynTree)) :
    List.Forall₂ (fun m m' => m.1 = m'.1 ∧ ∀ s, m.2 s = some (wroteForest o m'.2 s))
      (convertMembers lib o entries)
      (memberForests lib o o.members entries) := by
  match entries with
  | [] =>
    rw [convertMembers, memberForests]
    exact .nil
  | (key, v) :: entries =>
    rw [convertMembers, memberForests]
    refine .cons ⟨rfl, fun s => ?_⟩ (convertMembers_eq entries)
    match v with
    | .list items =>
      have hitems : wroteBody o (bodyOf lib o o.members key (.list items)) s =
          wroteForest o (bodyOf lib o o.members key (.list items)).children s := by
        simp only [bodyOf, wroteBody, textPuts, List.isEmpty_nil, if_true, write_nil,
          List.append_nil, Option.getD_none]
      simp only [DynTree.isList, if_true, convert_eq key (.list items), hitems]
    | .dict _ | .plain .. | .string _ | .oid _ | .table .. =>
      simp only [DynTree.isList, Bool.false_eq_true, if_false, convert_eq key, Option.bind_eq_bind,
        Option.bind_some, element_eq]

theorem convertItems_eq (name : Bytes) (items : List DynTree) (s : Var2XmlConverter) :
    convertItems lib o name items s =
      some (wroteForest o (itemForest lib o o.members name items) s) := by
  match items with
  | [] => rw [convertItems, itemForest, wroteForest_nil]
  | v :: items =>
    have helement : (bodyOf lib o o.members [] v).element name (attrTexts lib o v)
      (itemForest lib o o.members name items) =
        ((bodyOf lib o o.members [] v).element name (attrTexts lib o v) .nil).append
          (itemForest lib o o.members name items) := rfl
    rw [convertItems, itemForest, convert_eq [] v, Option.bind_eq_bind, Option.bind_some,
      element_eq, Option.bind_some, convertItems_eq name items, helement, wroteForest_append]

end

/-- `Process` writes the document. -/
theorem processWith_eq (data : DynTree) :
    processWith lib o data =
      if data.isDict || data.isList then
        some (.ok
          (write o
            (documentPuts o (attrTexts lib o data) (bodyOf lib o o.members o.itemName data))))
      else some (.error (ascii "Variable MUST be object (dict) or list")) := by
  rw [processWith]
  split_ifs with hdata hroot
  · rw [documentPuts, if_pos hroot]
    simp only [convert_eq, Option.bind_eq_bind, Option.bind_some, wroteBody, wroteForest,
      Var2XmlConverter.new, List.head?_nil, write_append, List.nil_append]
  · rw [documentPuts, if_neg hroot]
    simp only [convert_eq, element_eq, Option.bind_eq_bind, Option.bind_some, wroteForest,
      Var2XmlConverter.new, List.nil_append]
  · rfl

end Converter
end Nkit
