import BlockLens.Proofs.FileKind
import BlockLens.Resolve.Basic
/-!
What comes of one candidate. It is settled by itself, or it leads to another place; only the second
needs a search. A definition that is settled stands for the candidate, in the names and extents
that `Stems` lists.
-/

set_option autoImplicit false

namespace BlockLens

inductive Lead where
  | settled (found : List Definition)
  | onward (place : Place) (otherwise : List Definition)

def Lead.own : Lead → List Definition
  | .settled found => found
  | .onward _ otherwise => otherwise

namespace Definition

def unplaced (d : Definition) (file : String) : Definition :=
  { d with file, extent := .placeholder, context := d.context.map fun _ => .placeholder }

def mapped (d : Definition) (file : String) (v : View) : Definition :=
  { d with
    file
    extent := Resolve.compositeExtent v d.extent
    context := d.context.map (Resolve.compositeExtent v) }

/-- For a main module that leads nowhere. The context is still that in the main module. -/
def stranded (d : Definition) (file : String) : Definition :=
  { d with file, extent := .placeholder }

def inBlock (d : Definition) (file : String) : Option View → Lead
  | none => .settled [d.unplaced file]
  | some v =>
    if v.inZone .templateGlobals d.extent.start then
      match v.bindingTarget? d.extent.start with
      | none => .settled []
      | some t => .onward (d.file, t) []
    else if v.inZone .ignored d.extent.start then .onward (d.file, d.extent.start) []
    else .settled [d.mapped file v]

end Definition

namespace Resolve

def lead (d : Definition) : Resolve Lead :=
  match FileKind.classify d.file with
  | .block id => d.inBlock id.file <$> blockView d.file
  | .main file => return .onward (d.file, d.extent.start) [d.stranded file]
  | .plain | .composite => return .settled [d]

def orElse (found : Option (List Definition)) (otherwise : List Definition) : List Definition :=
  if (found.getD []).isEmpty then otherwise else found.getD []

theorem orElse_nil (found : Option (List Definition)) : orElse found [] = found.getD [] := by
  unfold orElse
  split
  · next h => exact (List.isEmpty_iff.1 h).symm
  · rfl

theorem orElse_subset (found : Option (List Definition)) (otherwise : List Definition) :
    orElse found otherwise ⊆ otherwise ++ found.getD [] := by
  unfold orElse
  split
  · exact List.subset_append_left _ _
  · exact List.subset_append_right _ _

def pursue (follow : Place → Resolve (Option (List Definition))) : Lead → Resolve (List Definition)
  | .settled found => return found
  | .onward p otherwise => return orElse (← follow p) otherwise

theorem normalize_eq (follow : Place → Resolve (Option (List Definition))) (d : Definition) :
    normalize follow d = lead d >>= pursue follow := by
  cases hk : FileKind.classify d.file with
  | plain => simp [normalize, lead, hk, pursue]
  | composite => simp [normalize, lead, hk, pursue]
  | main file =>
    simp only [normalize, lead, hk, pure_bind, pursue, orElse]
    refine bind_congr fun r => ?_
    split <;> rfl
  | block id =>
    simp only [normalize, lead, hk, bind_map_left]
    refine bind_congr fun view => ?_
    cases view with
    | none => rfl
    | some v =>
      simp only [Definition.inBlock]
      split
      · cases v.bindingTarget? d.extent.start with
        | none => rfl
        | some t => simp [pursue, orElse_nil]
      · split
        · simp [pursue, orElse_nil]
        · rfl

theorem normalizeAll_eq (follow : Place → Resolve (Option (List Definition)))
    (ds : List Definition) :
    normalizeAll follow ds = List.flatten <$> ds.mapM (normalize follow) := by
  induction ds with
  | nil => simp [normalizeAll]
  | cons d ds ih => simp [normalizeAll, ih, List.mapM_cons]

/-- Where the engine is asked about a place, and how extents there are shown. -/
def spot (p : Place) : Resolve (Option (Place × (Extent → Extent))) :=
  match FileKind.classify p.1 with
  | .composite =>
    (Option.map fun (v, offset) => ((v.doc.key, offset), compositeExtent v)) <$> locate p.1 p.2
  | _ => return some (p, id)

def whenSome {α β : Type} (m : Resolve (Option α)) (g : α → Resolve (Option β)) :
    Resolve (Option β) := do
  match ← m with
  | none => return none
  | some x => g x

def resolve (e : Engine) (follow : Place → Resolve (Option (List Definition))) (q : Place) :
    Resolve (Option (List Definition)) :=
  whenSome (ask .definition q (e.definitionsAt? q)) fun raw =>
    return some (dedupe (← raw.mapM (normalize follow)).flatten)

theorem follow_eq (e : Engine) {visited : List Place} {p : Place} (h : ¬ visited.contains p = true) :
    follow e visited p = resolve e (follow e (p :: visited)) p := by
  rw [follow, dif_neg h]
  simp only [resolve, whenSome, ask, bind_assoc, pure_bind]
  refine bind_congr fun _ => ?_
  split
  · next hn => simp [hn]
  · next raw hr => simp [hr, normalizeAll_eq]

theorem spot_of_ne {p : Place} (h : FileKind.classify p.1 ≠ .composite) :
    spot p = pure (some (p, id)) := by
  unfold spot
  split
  · contradiction
  · rfl

theorem definitions_eq (e : Engine) (p : Place) :
    definitions e p = whenSome (spot p) fun r => resolve e (follow e [p]) r.1 := by
  by_cases hk : FileKind.classify p.1 = .composite
  · simp only [definitions, spot, hk, whenSome, bind_map_left]
    refine bind_congr fun r => ?_
    cases r with
    | none => rfl
    | some r =>
      simp only [resolve, whenSome, Option.map_some]
      refine bind_congr fun answer => ?_
      cases answer with
      | none => rfl
      | some raw => simp [normalizeAll_eq]
  · rw [whenSome, spot_of_ne hk, pure_bind, definitions]
    split
    · contradiction
    · exact follow_eq e (by simp)

theorem bound_eq (e : Engine) (p : Place) :
    bound e p = whenSome (spot p) fun r => whenSome (ask .bound r.1 (e.boundAt? r.1)) fun b => do
      let found ← b.definitions.mapM (normalize (follow e [p]))
      return some ⟨dedupe found.flatten, r.2 b.extent⟩ := by
  by_cases hk : FileKind.classify p.1 = .composite
  · simp only [bound, spot, hk, whenSome, bind_map_left]
    refine bind_congr fun r => ?_
    cases r with
    | none => simp
    | some r =>
      simp only [pure_bind, Option.map_some]
      refine bind_congr fun answer => ?_
      cases answer with
      | none => rfl
      | some b => simp [normalizeAll_eq]
  · rw [whenSome, spot_of_ne hk, pure_bind, bound]
    split
    · contradiction
    · refine bind_congr fun answer => ?_
      cases answer with
      | none => rfl
      | some b => simp [normalizeAll_eq]

/-- The definition stands for the candidate `d`, as things were in the state `s`. -/
inductive Stems (s : Resolving) (d : Definition) : Definition → Prop where
  | same (h : FileKind.classify d.file = .plain ∨ FileKind.classify d.file = .composite) :
    Stems s d d
  | unplaced {id : Identifier} (hk : FileKind.classify d.file = .block id)
    (hv : ((blockView d.file).run s).1 = none) : Stems s d (d.unplaced id.file)
  | mapped {id : Identifier} {v : View} (hk : FileKind.classify d.file = .block id)
    (hv : ((blockView d.file).run s).1 = some v) : Stems s d (d.mapped id.file v)
  | stranded {file : String} (hk : FileKind.classify d.file = .main file) :
    Stems s d (d.stranded file)

theorem stems_of_inBlock {s : Resolving} {d x : Definition} {id : Identifier}
    (hk : FileKind.classify d.file = .block id)
    (h : x ∈ (d.inBlock id.file ((blockView d.file).run s).1).own) : Stems s d x := by
  cases hv : ((blockView d.file).run s).1 with
  | none =>
    simp only [hv, Definition.inBlock, Lead.own, List.mem_singleton] at h
    exact h ▸ .unplaced hk hv
  | some v =>
    simp only [hv, Definition.inBlock] at h
    split at h
    · cases ht : v.bindingTarget? d.extent.start <;> simp [ht, Lead.own] at h
    · split at h
      · simp [Lead.own] at h
      · simp only [Lead.own, List.mem_singleton] at h
        exact h ▸ .mapped hk hv

theorem stems_of_lead {s : Resolving} {d x : Definition} (h : x ∈ ((lead d).run s).1.own) :
    Stems s d x := by
  unfold lead at h
  split at h
  · next hk => exact stems_of_inBlock hk h
  · next hk =>
    obtain rfl := List.mem_singleton.1 h
    exact .stranded hk
  · next hk =>
    obtain rfl := List.mem_singleton.1 h
    exact .same (.inl hk)
  · next hk =>
    obtain rfl := List.mem_singleton.1 h
    exact .same (.inr hk)

/-- What stands for a candidate is in a real file, if blocks are named of composite files only. -/
theorem Stems.real {s : Resolving} {d x : Definition} (h : Stems s d x)
    (hc : ∀ id, FileKind.classify d.file = .block id → isComposite id.file = true) :
    FileKind.classify x.file = .plain ∨ FileKind.classify x.file = .composite := by
  cases h with
  | same h => exact h
  | unplaced hk _ => exact .inr (FileKind.classify_file_of_block hk (hc _ hk))
  | mapped hk _ => exact .inr (FileKind.classify_file_of_block hk (hc _ hk))
  | stranded hk => exact .inr (FileKind.classify_file_of_main hk)

end Resolve

end BlockLens
