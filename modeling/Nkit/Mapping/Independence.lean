import Nkit.Mapping.NamedRun

/-! Several mappings added to one builder do not see each other. -/

namespace Nkit
namespace Xml2Var
open OrderedMap

namespace StructXml2VarBuilder
variable {b : StructXml2VarBuilder} {created : List ItemId} {lib : ScalarLib}
  {mappings : List (Bytes × DynTree)}

/-- Calls of `AddMapping` that all succeed. -/
def addMappings (lib : ScalarLib) : List (Bytes × DynTree) → StructXml2VarBuilder →
    Option StructXml2VarBuilder
  | [], b => some b
  | (name, mapping) :: rest, b =>
    match b.addMapping lib name mapping with
    | (.ok (), b) => addMappings lib rest b
    | (.error _, _) => none

/-- Group number `k` is what a mapping compiles to, with the result `root`. -/
structure Installed (lib : ScalarLib) (b : StructXml2VarBuilder) (created : List ItemId)
    (mapping : DynTree) (k root : ℕ)
    (c : Compiled) : Prop where
  below : k < b.groupCount
  compiled : Compiled.compile lib b.options mapping = .ok (root, c)
  mine : created.filter (fun i => i.1 == k) = c.order.map fun i => (k, i)
  names : TargetGroup.Names b.str2id (b.groups k) c.group

structure Loaded (lib : ScalarLib) (b : StructXml2VarBuilder) (created : List ItemId)
    (mappings : List (Bytes × DynTree)) :
    Prop where
  sane : b.str2id.Sane
  hung : b.Hung created
  older : ∀ i ∈ created, i.1 < b.groupCount
  unused : ∀ k, b.groupCount ≤ k → b.groups k = .empty
  firstNode : b.firstNode = true
  currentPath : b.currentPath = .empty
  unknown : ∀ name, name ∉ mappings.map Prod.fst → get? bytesLt name b.rootTargets = none
  known : ∀ name mapping, (name, mapping) ∈ mappings → ∃ k root c,
    get? bytesLt name b.rootTargets = some (k, root) ∧ b.Installed lib created mapping k root c

theorem loaded_create (o : StructOptions) : (create o).Loaded lib [] [] where
  sane := String2IdMap.sane_create
  hung := ⟨rfl, fun _ => rfl⟩
  older := fun _ hi => nomatch hi
  unused := fun _ _ => rfl
  firstNode := rfl
  currentPath := rfl
  unknown := fun _ _ => rfl
  known := fun _ _ h => nomatch h

theorem Loaded.mirrors (h : b.Loaded lib created mappings) : b.Mirrors created .empty where
  sane := h.sane
  names := by
    rw [group, h.unused _ le_rfl]
    exact TargetGroup.names_empty
  hung := h.hung
  older := fun i hi => (h.older i hi).le
  mine := List.filter_eq_nil_iff.mpr fun i hi => by simpa using (h.older i hi).ne
  below := fun _ hi => nomatch hi

theorem Installed.extends {b' : StructXml2VarBuilder} {new : List ItemId} {mapping : DynTree}
    {k root : ℕ} {c : Compiled} (h : b.Installed lib created mapping k root c) (hext : b.Extends b')
    (hnew : ∀ i ∈ new, i.1 = b.groupCount ∧ 0 ≤ i.2) :
    b'.Installed lib (created ++ new) mapping k root c where
  below := hext.groupCount ▸ h.below
  compiled := hext.options ▸ h.compiled
  mine := by
    have hnone : new.filter (fun i => i.1 == k) = [] :=
      List.filter_eq_nil_iff.mpr fun i hi => by simpa [(hnew i hi).1] using h.below.ne'
    rw [List.filter_append, h.mine, hnone, List.append_nil]
  names := hext.groups k h.below.ne ▸ h.names.grows hext.grows

theorem Loaded.addMapping (h : b.Loaded lib created mappings) {name : Bytes} (mapping : DynTree)
    (hname : name ∉ mappings.map Prod.fst) :
    (∃ b' created' res, b.addMapping lib name mapping = (.ok (), b') ∧ b'.options = b.options ∧
        Compiled.compile lib b.options mapping = .ok res ∧
        b'.Loaded lib created' ((name, mapping) :: mappings)) ∨
      ∃ e b', b.addMapping lib name mapping = (.error e, b') ∧
        Compiled.compile lib b.options mapping = .error e := by
  obtain ⟨e, b', hr, hr'⟩ | ⟨root, b', c, hr, hr', -, hext, -, new, hm, hnew⟩ :=
    (parseMapping_parses mapping h.mirrors).cases
  · have hadd : b.addMapping lib name mapping =
        (.error e, { b' with groupCount := b'.groupCount + 1 }) := by
      rw [StructXml2VarBuilder.addMapping, hr]
    exact .inr ⟨e, _, hadd, hr'⟩
  · have hadd : b.addMapping lib name mapping = (.ok (), { b' with
        groupCount := b'.groupCount + 1
        rootTargets :=
          update bytesLt name (b'.groupCount, root) (fun _ => (b'.groupCount, root)) b'.rootTargets
            }) := by
      rw [StructXml2VarBuilder.addMapping, hr]
    refine .inl ⟨_, created ++ new, (root, c), hadd, hext.options, hr', ?_⟩
    have hroot :
      ∀ n, get? bytesLt n
        (update bytesLt name (b'.groupCount, root) (fun _ => (b'.groupCount, root))
        b'.rootTargets) = if name = n then some (b'.groupCount, root)
          else get? bytesLt n b.rootTargets := by
      intro n
      rw [get?_update_bytes, hext.rootTargets]
    constructor
    · exact hm.sane
    · exact ⟨hm.hung.masks, hm.hung.nodes⟩
    · exact fun i hi => Nat.lt_succ_of_le (hm.older i hi)
    · intro k hk
      have hlt : b.groupCount < k := hext.groupCount ▸ Nat.lt_of_succ_le hk
      exact (hext.groups k hlt.ne').trans (h.unused k hlt.le)
    · exact hext.firstNode.trans h.firstNode
    · exact hext.currentPath.trans h.currentPath
    · intro n hn
      rw [List.map_cons, List.mem_cons, not_or] at hn
      rw [hroot, if_neg (Ne.symm hn.1)]
      exact h.unknown n hn.2
    · intro n mapping' hin
      rcases List.mem_cons.mp hin with heq | hin
      · obtain ⟨rfl, rfl⟩ := Prod.mk.inj heq
        refine ⟨b'.groupCount, root, c, (hroot n).trans (if_pos rfl), Nat.lt_succ_self _, ?_,
          hm.mine, hm.names⟩
        exact hext.options ▸ hr'
      · obtain ⟨k, root', c', hget, hinst⟩ := h.known n mapping' hin
        have hne : name ≠ n := fun heq => hname (heq ▸ List.mem_map_of_mem (f := Prod.fst) hin)
        obtain ⟨hbelow, hcomp, hmine, hnames⟩ := hinst.extends hext hnew
        exact ⟨k, root', c', (hroot n).trans ((if_neg hne).trans hget),
          hbelow.trans (Nat.lt_succ_self _), hcomp, hmine, hnames⟩

/-- Before the first event group number `k` is at the start of its run. -/
theorem Loaded.runs (h : b.Loaded lib created mappings) {mapping : DynTree} {k root : ℕ}
    {c : Compiled} (hinst : b.Installed lib created mapping k root c) :
    b.Runs created k (.start c) :=
  ⟨h.sane, h.hung, hinst.mine, hinst.names, h.firstNode, h.currentPath ▸ Path.names_empty⟩

def value (lib : ScalarLib) (o : StructOptions) (mapping : DynTree) (events : List XmlEvent) :
    DynTree :=
  match Compiled.compile lib o mapping with
  | .ok (root, c) => ((NamedRun.start c).feed lib o events).var root
  | .error _ => .plain .none 0

theorem Loaded.var (h : b.Loaded lib created mappings) {name : Bytes} {mapping : DynTree}
    (hin : (name, mapping) ∈ mappings) (events : List XmlEvent) :
    (b.feed lib events).var name = value lib b.options mapping events := by
  obtain ⟨k, root, c, hroot, hinst⟩ := h.known name mapping hin
  have hrun : (b.feed lib events).Runs created k ((NamedRun.start c).feed lib b.options events) :=
    (h.runs hinst).feed events
  rw [hrun.var ((congrArg _ (feed_rootTargets events b)).trans hroot), value, hinst.compiled]

theorem Loaded.var_unknown (h : b.Loaded lib created mappings) {name : Bytes}
    (hname : name ∉ mappings.map Prod.fst) (events : List XmlEvent) :
    (b.feed lib events).var name = .plain .none 0 := by
  rw [StructXml2VarBuilder.var, feed_rootTargets, h.unknown name hname]

theorem Loaded.addMappings (h : b.Loaded lib created mappings) (added : List (Bytes × DynTree))
    (hnames : (added.map Prod.fst ++ mappings.map Prod.fst).Nodup)
    (hcomp : ∀ e ∈ added, ∃ res, Compiled.compile lib b.options e.2 = .ok res) :
    ∃ b' created', StructXml2VarBuilder.addMappings lib added b = some b' ∧ b'.options = b.options ∧
      b'.Loaded lib created' (added.reverse ++ mappings) := by
  induction added generalizing b created mappings with
  | nil => exact ⟨b, created, rfl, rfl, h⟩
  | cons e added ih =>
    obtain ⟨name, mapping⟩ := e
    rw [List.map_cons, List.cons_append, List.nodup_cons, List.mem_append, not_or] at hnames
    obtain ⟨b₁, created₁, res, hadd, hopt, -, hload⟩ | ⟨e, b₁, -, herr⟩ :=
      h.addMapping mapping hnames.1.2
    · have hnodup : (added.map Prod.fst ++ ((name, mapping) :: mappings).map Prod.fst).Nodup := by
        rw [List.map_cons, List.nodup_middle, List.nodup_cons, List.mem_append, not_or]
        exact hnames
      obtain ⟨b', created', hrest, hopt', hload'⟩ := ih hload hnodup fun e he =>
        hopt ▸ hcomp e (List.mem_cons_of_mem _ he)
      refine ⟨b', created', ?_, hopt'.trans hopt, ?_⟩
      · rw [StructXml2VarBuilder.addMappings, hadd]
        exact hrest
      · rw [List.reverse_cons, List.append_assoc]
        exact hload'
    · obtain ⟨res, hok⟩ := hcomp _ List.mem_cons_self
      rw [herr] at hok
      cases hok

theorem Loaded.compiles (h : b.Loaded lib created mappings) (added : List (Bytes × DynTree))
    (hnames : (added.map Prod.fst ++ mappings.map Prod.fst).Nodup) {b' : StructXml2VarBuilder}
    (hadd : StructXml2VarBuilder.addMappings lib added b = some b') :
    ∀ e ∈ added, ∃ res, Compiled.compile lib b.options e.2 = .ok res := by
  induction added generalizing b created mappings with
  | nil => exact fun _ he => nomatch he
  | cons e added ih =>
    obtain ⟨name, mapping⟩ := e
    rw [List.map_cons, List.cons_append, List.nodup_cons, List.mem_append, not_or] at hnames
    rw [StructXml2VarBuilder.addMappings] at hadd
    obtain ⟨b₁, created₁, res, hadd₁, hopt, hok, hload⟩ | ⟨e, b₁, hadd₁, -⟩ :=
      h.addMapping mapping hnames.1.2
    · have hnodup : (added.map Prod.fst ++ ((name, mapping) :: mappings).map Prod.fst).Nodup := by
        rw [List.map_cons, List.nodup_middle, List.nodup_cons, List.mem_append, not_or]
        exact hnames
      rw [hadd₁] at hadd
      intro e he
      rcases List.mem_cons.mp he with rfl | he
      · exact ⟨res, hok⟩
      · exact hopt ▸ ih hload hnodup hadd e he
    · rw [hadd₁] at hadd
      cases hadd

theorem addMappings_values {o : StructOptions} (hnames : (mappings.map Prod.fst).Nodup)
    (hcomp : ∀ e ∈ mappings, ∃ res, Compiled.compile lib o e.2 = .ok res) :
    ∃ b, addMappings lib mappings (create o) = some b ∧ ∀ events,
      (∀ name mapping, (name, mapping) ∈ mappings → (b.feed lib events).var name =
        value lib o mapping events) ∧
      ∀ name, name ∉ mappings.map Prod.fst → (b.feed lib events).var name = .plain .none 0 := by
  obtain ⟨b, created, hadd, hopt, hload⟩ :=
    (loaded_create o).addMappings mappings (by simpa using hnames) hcomp
  rw [List.append_nil] at hload
  refine ⟨b, hadd, fun events => ⟨fun name mapping hin => ?_, fun name hname => ?_⟩⟩
  · rw [hload.var (List.mem_reverse.mpr hin), hopt]
    rfl
  · exact hload.var_unknown (by simpa using hname) events

/-- Each of several mappings gives what it gives alone, whatever their order. -/
theorem mappings_independent {o : StructOptions} (hnames : (mappings.map Prod.fst).Nodup)
    (hadd : addMappings lib mappings (create o) = some b) (events : List XmlEvent) :
    (∀ name mapping, (name, mapping) ∈ mappings →
      ∃ b₁, addMappings lib [(name, mapping)] (create o) = some b₁ ∧
        (b.feed lib events).var name = (b₁.feed lib events).var name) ∧
      ∀ mappings', mappings'.Perm mappings → ∃ b', addMappings lib mappings' (create o) = some b' ∧
        ∀ name, (b'.feed lib events).var name = (b.feed lib events).var name := by
  have hcomp : ∀ e ∈ mappings, ∃ res, Compiled.compile lib o e.2 = .ok res :=
    (loaded_create o).compiles mappings (by simpa using hnames) hadd
  obtain ⟨b₀, hb₀, hvalues⟩ := addMappings_values hnames hcomp
  obtain rfl : b₀ = b := Option.some.inj (hb₀.symm.trans hadd)
  constructor
  · intro name mapping hin
    have hone : ([(name, mapping)].map Prod.fst).Nodup := List.nodup_singleton name
    obtain ⟨b₁, hb₁, hvalues₁⟩ := addMappings_values hone fun e he =>
      List.mem_singleton.mp he ▸ hcomp _ hin
    refine ⟨b₁, hb₁, ?_⟩
    rw [(hvalues events).1 name mapping hin, (hvalues₁ events).1 name mapping List.mem_cons_self]
  · intro mappings' hperm
    obtain ⟨b', hb', hvalues'⟩ := addMappings_values ((hperm.map Prod.fst).nodup_iff.mpr hnames)
      fun e he => hcomp e (hperm.mem_iff.mp he)
    refine ⟨b', hb', fun name => ?_⟩
    by_cases hname : name ∈ mappings.map Prod.fst
    · obtain ⟨⟨n, mapping⟩, hin, rfl⟩ := List.mem_map.mp hname
      rw [(hvalues events).1 n mapping hin, (hvalues' events).1 n mapping (hperm.mem_iff.mpr hin)]
    · have hname' : name ∉ mappings'.map Prod.fst :=
        fun h => hname ((hperm.map Prod.fst).mem_iff.mp h)
      rw [(hvalues events).2 name hname, (hvalues' events).2 name hname']

def sampleLib : ScalarLib where
  strtod := fun _ => 0
  printFloat := fun _ => []
  printDateTime := fun _ => []
  castSigned := fun _ => 0
  castUnsigned := fun _ => 0
  scanDouble := fun _ _ => 0
  dateTimeFromString := fun _ _ => .undef

def sampleOptions : StructOptions := ⟨⟨true, Tools.whiteSpaces, true, [], []⟩, [], []⟩

def sampleMappings : List (Bytes × DynTree) :=
  [(ascii "names",
    .list [.string (ascii "person"), .dict [(ascii "name", .string (ascii "string|none"))]]),
    (ascii "all", .list [.string (ascii "*"), .string (ascii "string")])]

def sampleEvents : List XmlEvent :=
  [.startElement (ascii "root") [], .startElement (ascii "person") [], .text (ascii "x"),
    .endElement (ascii "person"), .endElement (ascii "root")]

theorem mappings_independent_sample :
    ∃ b b₁, addMappings sampleLib sampleMappings (create sampleOptions) = some b ∧
      addMappings sampleLib [(ascii "all", .list [.string (ascii "*"), .string (ascii "string")])]
        (create sampleOptions) =
        some b₁ ∧
      (b.feed sampleLib sampleEvents).var (ascii "all") = (b₁.feed sampleLib sampleEvents).var
        (ascii "all") := by
  have hsome : (addMappings sampleLib sampleMappings (create sampleOptions)).isSome = true := by
    decide +kernel
  obtain ⟨b, hb⟩ := Option.isSome_iff_exists.mp hsome
  obtain ⟨b₁, hb₁, hvar⟩ := (mappings_independent (by decide) hb sampleEvents).1 _ _
    (List.mem_cons_of_mem _ List.mem_cons_self)
  exact ⟨b, b₁, hb, hb₁, hvar⟩

end StructXml2VarBuilder

end Xml2Var
end Nkit
