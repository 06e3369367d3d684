import Nkit.Getter.Outputs

/-! Maps of shared pointers: each key of the dict is made into a path and parsed again. -/

namespace Nkit
open OrderedMap Collect

section
variable {vars : Variables} {lib : CLib} {delimiter : UInt8} {key : Bytes}
  {entries : List (Bytes × DynTree)} {T : Type}
  {create : Create T} {g : DynamicGetter} {path : DynamicPath}

theorem keyPath_iff {items : List PathItem} (hne : key ≠ []) (hkey : delimiter ∉ key) :
    setPath delimiter (delimiter :: key) [] = .ok items ↔
      ∃ flawed, Takes delimiter .key key [] items flawed := by
  have hlone : delimiter :: key ≠ [delimiter] := fun h => hne (List.cons.inj h).2
  rw [setPath, if_neg hlone]
  exact makePath_of_takes (fun hmem => absurd hmem hkey) rfl (.inl ⟨rfl, rfl, rfl⟩) hne

theorem takes_name (hname : IsName delimiter key) :
    Takes delimiter .key key [] [.key key] false := by
  have htakes : Takes delimiter .key (key ++ []) [] [.key key] false :=
    .name hname (.stop .named [])
  rwa [List.append_nil] at htakes

theorem dictElement_iff {pair : Bytes × DynTree} {o : Option T} (hne : pair.1 ≠ [])
    (hkey : g.delimiter ∉ pair.1) :
    g.dictElement vars create path entries pair [] = (o, []) ↔
      ∃ items flawed v, Takes g.delimiter .key pair.1 [] items flawed ∧
        (⟨g.delimiter, items, []⟩ : DynamicPath).find vars (.dict entries) = some v ∧
        create ((g.below path (.dict entries)).below ⟨g.delimiter, items, []⟩ v) [] = (o, []) := by
  have hset : ∀ items, setPath g.delimiter (g.delimiter :: pair.1) [] = .ok items ↔
      ∃ flawed, Takes g.delimiter .key pair.1 [] items flawed := fun _ => keyPath_iff hne hkey
  rw [DynamicGetter.dictElement, DynamicGetter.getElement, DynamicGetter.checked,
    if_neg (not_not.mpr rfl)]
  simp only [SubPath.rejected, SubPath.toPath]
  change (if (!(DynamicPath.create g.delimiter (g.delimiter :: pair.1) []).ok) = true then _
    else _) = _ ↔ _
  constructor
  · intro h
    split_ifs at h with hrejected
    · cases h
    rw [Bool.not_eq_true', Bool.not_eq_false] at hrejected
    have hitems := DynamicPath.create_ok [] hrejected
    obtain ⟨flawed, htakes⟩ := (hset _).mp hitems
    rw [show (g.below path (.dict entries)).delimiter = g.delimiter from rfl,
      DynamicPath.create_of_set hitems, DynamicGetter.getShared] at h
    generalize (DynamicPath.create g.delimiter (g.delimiter :: pair.1) []).pathItems = items
      at h htakes
    cases hfind : (⟨g.delimiter, items, []⟩ : DynamicPath).find vars (.dict entries) with
    | none =>
      rw [DynamicGetter.sub_missing hfind] at h
      cases h
    | some v =>
      rw [DynamicGetter.sub_found hfind] at h
      dsimp only at h
      refine ⟨items, flawed, v, htakes, hfind, ?_⟩
      split at h
      · rename_i hcreate
        rw [hcreate, h]
      · rename_i hno hcreate
        exact absurd (Prod.mk.inj h).2 hno
  · rintro ⟨items, flawed, v, htakes, hfind, hcreate⟩
    have hitems := DynamicPath.create_of_set ((hset items).mpr ⟨flawed, htakes⟩)
    rw [show (g.below path (.dict entries)).delimiter = g.delimiter from rfl, hitems,
      if_neg (by simp [DynamicPath.ok]), DynamicGetter.getShared, DynamicGetter.sub_found hfind]
    simp only [hcreate]

theorem objectMap_eq (hsorted : Sorted bytesLt entries) {objs : List (Option T)}
    (hlen : entries.length = objs.length) :
    objectMap bytesLt id entries objs = (entries.zip objs).map fun eo => (eo.1.1, eo.2) := by
  have hfill : ∀ tmp : List (Bytes × Option T),
    (∀ e ∈ tmp, ∀ e' ∈ entries, bytesLt e.1 e'.1 = true) →
      fill (fun tmp pair o => update bytesLt (id pair.1) none (fun _ => o) tmp) tmp entries objs =
        tmp ++ (entries.zip objs).map fun eo => (eo.1.1, eo.2) := by
    induction entries generalizing objs with
    | nil =>
      intro tmp _
      exact (List.append_nil tmp).symm
    | cons e entries ih =>
      intro tmp htmp
      cases objs with
      | nil => cases hlen
      | cons o objs =>
        obtain ⟨hfirst, hrest⟩ := sorted_cons.mp hsorted
        have hput : update bytesLt e.1 none (fun _ => o) tmp = tmp ++ [(e.1, o)] :=
          update_last (fun e' he' => htmp e' he' e List.mem_cons_self) none fun _ => o
        have hnext := ih hrest (Nat.succ.inj hlen) (tmp ++ [(e.1, o)]) (by
          intro e' he' e'' he''
          rcases List.mem_append.mp he' with he' | he'
          · exact htmp e' he' e'' (List.mem_cons_of_mem e he'')
          · obtain rfl := List.mem_singleton.mp he'
            exact hfirst e'' he'')
        rw [List.append_assoc] at hnext
        rw [← hput] at hnext
        exact hnext
  exact hfill [] nofun

/-- The map of a dict, by what its keys mean as paths. -/
theorem object_map_iff (vars : Variables) (lib : CLib) {T : Type} (create : Create T)
    (obj : DynTree → Option T) (g : DynamicGetter) (path : Bytes) (entries : List (Bytes × DynTree))
    (out : List (Bytes × Option T)) (hok : (DynamicPath.create g.delimiter path []).ok = true)
    (hfind : (DynamicPath.create g.delimiter path []).find vars g.data = some (.dict entries))
    (hsorted : Sorted bytesLt entries) (hkeys : ∀ e ∈ entries, e.1 ≠ [] ∧ g.delimiter ∉ e.1)
    (hcreate : ∀ e ∈ entries, ∀ getter : DynamicGetter, getter.data = e.2 →
      getter.delimiter = g.delimiter → create getter [] = (obj e.2, [])) :
    g.get vars lib (.sharedMap bytesLt id create) (.text path) out [] =
      (entries.map fun e => (e.1, obj e.2), []) ↔
      ∀ e ∈ entries, IsName g.delimiter e.1 ∨
        ∃ items flawed v, Takes g.delimiter .key e.1 [] items flawed ∧
        (⟨g.delimiter, items, []⟩ : DynamicPath).find vars (.dict entries) = some v ∧
        create ((g.below (DynamicPath.create g.delimiter path []) (.dict entries)).below
          ⟨g.delimiter, items, []⟩ v) [] =
          (obj e.2, []) := by
  have hget : g.get vars lib (.sharedMap bytesLt id create) (.text path) out [] =
      collect (g.dictElement vars create (DynamicPath.create g.delimiter path []) entries)
        (fun tmp pair o => update bytesLt (id pair.1) none (fun _ => o) tmp) entries [] [] := by
    rw [DynamicGetter.get_of_accepted (by simp [SubPath.rejected, hok])]
    simp only [DynamicGetter.getPath, SubPath.toPath, DynamicGetter.sub_found hfind]
    rfl
  have hobjects : ∀ objs : List (Option T), entries.length = objs.length →
      (objectMap bytesLt id entries objs = (entries.map fun e => (e.1, obj e.2)) ↔
        objs = entries.map fun e => obj e.2) := by
    intro objs hlen
    rw [objectMap_eq hsorted hlen]
    constructor
    · intro h
      have hsnd := congrArg (List.map Prod.snd) h
      have hzip : (entries.zip objs).map Prod.snd = objs := List.map_snd_zip hlen.ge
      rw [List.map_map, List.map_map] at hsnd
      exact hzip.symm.trans hsnd
    · rintro rfl
      have hzip : entries.zip (entries.map fun e => obj e.2) = entries.map fun e =>
          (e, obj e.2) := by
        simpa using List.zip_map' (f := id) (g := fun e : Bytes × DynTree => obj e.2) (l := entries)
      rw [hzip, List.map_map]
      rfl
  have helements :
    Builds (g.dictElement vars create (DynamicPath.create g.delimiter path []) entries) entries
      (entries.map fun e => obj e.2) ↔ ∀ e ∈ entries,
        g.dictElement vars create (DynamicPath.create g.delimiter path []) entries e [] =
          (obj e.2, []) := by
    rw [Builds, List.forall₂_map_right_iff, List.forall₂_same]
  -- the map is right if and only if every object is, and an object is made from what its key
  -- leads to
  rw [hget]
  refine Iff.trans ⟨fun h => ?_, fun h => ?_⟩ (helements.trans (forall₂_congr fun e he => ?_))
  · obtain ⟨objs, hbuilds⟩ := collect_errors_nil_iff.mp (congrArg Prod.snd h)
    rw [collect_of_builds hbuilds] at h
    exact (hobjects objs hbuilds.length_eq).mp (congrArg Prod.fst h) ▸ hbuilds
  · rw [collect_of_builds h]
    exact Prod.ext ((hobjects _ h.length_eq).mpr rfl) rfl
  · obtain ⟨hne, hkey⟩ := hkeys e he
    rw [dictElement_iff hne hkey]
    refine ⟨.inr, fun h => h.elim (fun hname => ?_) id⟩
    refine ⟨[.key e.1], false, e.2, takes_name hname, ?_, hcreate e he _ rfl rfl⟩
    have hvalue : get? bytesLt e.1 entries = some e.2 :=
      get?_eq_some_of_mem bytesLt_strictWeak hsorted he
    show (get? bytesLt e.1 entries).bind _ = _
    rw [hvalue]
    rfl

end

def createCopy : Create DynTree := fun getter errors => (some getter.data, errors)

/-- A dict of the key `a` alone. -/
theorem object_map_a :
    DynamicGetter.get ⟨fun _ => [], fun _ => 0⟩ ⟨fun _ => 0, fun _ => [], fun _ => [], fun _ => 0,
      fun _ => 0⟩
    (.sharedMap bytesLt id createCopy) ⟨ascii "-", 46, ⟨46, [], []⟩,
      .dict [(ascii "a", .plain .integer 1)]⟩ (.text []) [] [] =
      ([(ascii "a", some (.plain .integer 1))], []) := by
  refine (object_map_iff _ _ createCopy some _ [] [(ascii "a", .plain .integer 1)] [] rfl rfl
    (List.pairwise_singleton _ _)
    ?_ ?_).mpr ?_
  · simp only [List.mem_singleton, forall_eq]
    decide
  · rintro e - getter hdata -
    rw [createCopy, hdata]
  · simp only [List.mem_singleton, forall_eq]
    exact .inl isName_a

/-- The key `a[` is read as the key `a`, which is not there. -/
theorem object_map_open_bracket :
    ¬∃ (vars : Variables) (lib : CLib),
      ∀ (g : DynamicGetter) (path : Bytes) (entries : List (Bytes × DynTree))
      (out : List (Bytes × Option DynTree)), (DynamicPath.create g.delimiter path []).ok = true →
      (DynamicPath.create g.delimiter path []).find vars g.data = some (.dict entries) →
        Sorted bytesLt entries →
      (∀ e ∈ entries, e.1 ≠ [] ∧ g.delimiter ∉ e.1) →
      g.get vars lib (.sharedMap bytesLt id createCopy) (.text path) out [] =
        (entries.map fun e => (e.1, some e.2), []) := by
  rintro ⟨vars, lib, h⟩
  let entries : List (Bytes × DynTree) := [(ascii "a[", .plain .integer 1)]
  have hmap := h ⟨ascii "-", 46, ⟨46, [], []⟩, .dict entries⟩ [] entries [] rfl rfl
    (List.pairwise_singleton _ _)
    (by simp only [entries, List.mem_singleton, forall_eq]; decide)
  rw [DynamicGetter.get_of_accepted (by decide)] at hmap
  cases hmap

end Nkit
