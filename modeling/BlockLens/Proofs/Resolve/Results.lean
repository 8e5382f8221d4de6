import BlockLens.Document.Defaults
import BlockLens.Proofs.Resolve.Trail

set_option autoImplicit false

namespace BlockLens

open Resolve

def Definition.site (d : Definition) : String × Nat × Nat := (d.file, d.extent.start, d.extent.length)

theorem Definition.site_eq {d x : Definition} :
    x.site = d.site ↔ x.file = d.file ∧ x.extent = d.extent := by
  obtain ⟨_, ⟨_, _⟩, _⟩ := d
  obtain ⟨_, ⟨_, _⟩, _⟩ := x
  simp [site]

/-- `k` is `l` without what repeats the site of an earlier definition. -/
inductive Firsts : List Definition → List Definition → Prop where
  | nil : Firsts [] []
  | new {l k : List Definition} {d : Definition} (h : Firsts l k) (hd : ∀ x ∈ l, x.site ≠ d.site) :
    Firsts (l ++ [d]) (k ++ [d])
  | again {l k : List Definition} {d : Definition} (h : Firsts l k) (hd : ∃ x ∈ l, x.site = d.site) :
    Firsts (l ++ [d]) k

namespace Resolve

theorem dedupe_cons (d : Definition) (l : List Definition) :
    dedupe (d :: l) = d :: (dedupe l).filter fun x => x.site ≠ d.site := by
  simp only [dedupe, ne_eq, Definition.site_eq, List.cons.injEq, true_and]
  congr
  funext x
  rw [← Bool.decide_and, ← decide_not]

theorem dedupe_concat_of_new {l : List Definition} {d : Definition}
    (h : ∀ x ∈ l, x.site ≠ d.site) : dedupe (l ++ [d]) = dedupe l ++ [d] := by
  induction l with
  | nil => rfl
  | cons c l ih =>
    have hc : d.site ≠ c.site := (h c (by simp)).symm
    rw [List.cons_append, dedupe_cons, dedupe_cons, ih fun x hx => h x (by simp [hx])]
    simp [hc]

theorem dedupe_concat_of_mem {l : List Definition} {d : Definition}
    (h : ∃ x ∈ l, x.site = d.site) : dedupe (l ++ [d]) = dedupe l := by
  induction l with
  | nil => simp at h
  | cons c l ih =>
    rw [List.cons_append, dedupe_cons, dedupe_cons]
    by_cases hl : ∃ x ∈ l, x.site = d.site
    · rw [ih hl]
    · -- then it is the first that has the site
      have hnew : ∀ x ∈ l, x.site ≠ d.site := fun x hx he => hl ⟨x, hx, he⟩
      have hc : c.site = d.site := by
        obtain ⟨x, hx, he⟩ := h
        rcases List.mem_cons.1 hx with rfl | hx
        · exact he
        · exact absurd he (hnew x hx)
      rw [dedupe_concat_of_new hnew]
      simp [hc]

theorem firsts_append {l : List Definition} (h : Firsts l (dedupe l)) (k : List Definition) :
    Firsts (l ++ k) (dedupe (l ++ k)) := by
  induction k generalizing l with
  | nil => simpa using h
  | cons d k ih =>
    rw [List.append_cons]
    refine ih ?_
    by_cases hd : ∃ x ∈ l, x.site = d.site
    · rw [dedupe_concat_of_mem hd]
      exact h.again hd
    · have hnew : ∀ x ∈ l, x.site ≠ d.site := fun x hx he => hd ⟨x, hx, he⟩
      rw [dedupe_concat_of_new hnew]
      exact h.new hnew

theorem firsts_dedupe (l : List Definition) : Firsts l (dedupe l) := firsts_append .nil l

theorem pairwise_dedupe (l : List Definition) :
    (dedupe l).Pairwise fun x y => x.site ≠ y.site := by
  induction l with
  | nil => exact .nil
  | cons d l ih =>
    rw [dedupe_cons]
    refine List.pairwise_cons.2 ⟨fun x hx => ?_, ih.filter _⟩
    have hne : x.site ≠ d.site := by simpa using (List.mem_filter.1 hx).2
    exact hne.symm

end Resolve

def Oracle.NamesComposites (a : Oracle) : Prop :=
  ∀ d, a.Offers d → ∀ id, FileKind.classify d.file = .block id → isComposite id.file = true

def Trail.asked (k : Question) (p q : Place) (s : Resolving) : Trail where
  resolving := ((spot p >>= fun _ => ask k q ()).run s).2
  chains := [[p]]

namespace Oracle

variable {a : Oracle} {depth : Nat} {p : Place} {s : Resolving} {u : Trail}

/-- `l` comes from the candidates `raw`, which are taken in order from `t` on. -/
structure Assembles (a : Oracle) (depth : Nat) (p : Place) (raw : List Definition) (t u : Trail)
    (l : List Definition) : Prop where
  real : ∀ x ∈ l, FileKind.classify x.file = .plain ∨ FileKind.classify x.file = .composite
  distinct : l.Pairwise fun x y => x.site ≠ y.site
  inOrder : ∃ parts, (raw.mapM (Search.normalize (a.follow depth [p]))).run t = some (parts, u) ∧
    Firsts parts.flatten l

theorem definitions_eq_some {l : List Definition}
    (h : (a.definitions (depth + 1) p).run { resolving := s } = some (some l, u)) :
    ∃ r raw parts, ((spot p).run s).1 = some r ∧ a.definitionsAt? r.1 = some raw ∧
      (raw.mapM (Search.normalize (a.follow depth [p]))).run (.asked .definition p r.1 s) =
        some (parts, u) ∧ l = dedupe parts.flatten := by
  change (Search.whenSome (spot p) _).run { resolving := s, chains := [[p]] } = _ at h
  obtain ⟨r, hr, h⟩ := Search.of_run_whenSome h
  obtain ⟨raw, hraw, h⟩ := Search.of_run_whenSome h
  obtain ⟨parts, w, hparts, h⟩ := Search.run_bind_eq_some.1 h
  obtain ⟨hl, rfl⟩ := Prod.mk.inj (Option.some.inj h)
  exact ⟨r, raw, parts, hr, hraw, hparts, (Option.some.inj hl).symm⟩

theorem bound_eq_some {b : Bound}
    (h : (a.bound (depth + 1) p).run { resolving := s } = some (some b, u)) :
    ∃ r found parts, ((spot p).run s).1 = some r ∧ a.boundAt? r.1 = some found ∧
      (found.definitions.mapM (Search.normalize (a.follow depth [p]))).run (.asked .bound p r.1 s) =
        some (parts, u) ∧ b = ⟨dedupe parts.flatten, r.2 found.extent⟩ := by
  change (Search.whenSome (spot p) _).run { resolving := s, chains := [[p]] } = _ at h
  obtain ⟨r, hr, h⟩ := Search.of_run_whenSome h
  obtain ⟨found, hfound, h⟩ := Search.of_run_whenSome h
  obtain ⟨parts, w, hparts, h⟩ := Search.run_bind_eq_some.1 h
  obtain ⟨hb, rfl⟩ := Prod.mk.inj (Option.some.inj h)
  exact ⟨r, found, parts, hr, hfound, hparts, (Option.some.inj hb).symm⟩

theorem run_definitions {r : Option (List Definition)}
    (h : (a.definitions depth p).run { resolving := s } = some (r, u)) (e : Engine)
    (he : e.oracle = a) : (Resolve.definitions e p).run s = (r, u.resolving) := by
  subst he
  exact Search.simulates_definitions e depth p _ r u h

theorem run_bound {r : Option Bound}
    (h : (a.bound depth p).run { resolving := s } = some (r, u)) (e : Engine)
    (he : e.oracle = a) : (Resolve.bound e p).run s = (r, u.resolving) := by
  subst he
  exact Search.simulates_bound e depth p _ r u h

theorem traces_definitions {l : List Definition}
    (h : (a.definitions depth p).run { resolving := s } = some (some l, u)) :
    Trail.Traces a depth { resolving := s } u l :=
  Search.traceable_definitions a depth p _ _ u (Trail.regular_start a depth s) h

theorem traces_bound {b : Bound}
    (h : (a.bound depth p).run { resolving := s } = some (some b, u)) :
    Trail.Traces a depth { resolving := s } u b.definitions :=
  Search.traceable_bound a depth p _ _ u (Trail.regular_start a depth s) h

theorem assembles_dedupe (ha : a.NamesComposites) {limit : Nat} {raw : List Definition}
    {t₀ t u : Trail} {parts : List (List Definition)}
    (h : (raw.mapM (Search.normalize (a.follow depth [p]))).run t = some (parts, u))
    (ht : Trail.Traces a limit t₀ u (dedupe parts.flatten)) :
    a.Assembles depth p raw t u (dedupe parts.flatten) where
  real x hx := by
    obtain ⟨c, hc, hs⟩ := ht.found x hx
    exact hs.real (ha c.1 (ht.regular.offered c hc))
  distinct := pairwise_dedupe _
  inOrder := ⟨parts, h, firsts_dedupe _⟩

/-- Where resolution gives definitions, they are real, at different sites and in the order of the
candidates. -/
theorem results_assembled (ha : a.NamesComposites) (depth : Nat) (p : Place) (s : Resolving) :
    (∀ l u, (a.definitions (depth + 1) p).run { resolving := s } = some (some l, u) →
      (∀ e : Engine, e.oracle = a → (Resolve.definitions e p).run s = (some l, u.resolving)) ∧
      ∃ r raw, ((spot p).run s).1 = some r ∧ a.definitionsAt? r.1 = some raw ∧
        a.Assembles depth p raw (.asked .definition p r.1 s) u l) ∧
    ∀ b u, (a.bound (depth + 1) p).run { resolving := s } = some (some b, u) →
      (∀ e : Engine, e.oracle = a → (Resolve.bound e p).run s = (some b, u.resolving)) ∧
      ∃ r found, ((spot p).run s).1 = some r ∧ a.boundAt? r.1 = some found ∧
        b.extent = r.2 found.extent ∧
        a.Assembles depth p found.definitions (.asked .bound p r.1 s) u b.definitions := by
  constructor
  · intro l u h
    have ht := traces_definitions h
    obtain ⟨r, raw, parts, hr, hraw, hparts, rfl⟩ := definitions_eq_some h
    exact ⟨run_definitions h, r, raw, hr, hraw, assembles_dedupe ha hparts ht⟩
  · intro b u h
    have ht := traces_bound h
    obtain ⟨r, found, parts, hr, hfound, hparts, rfl⟩ := bound_eq_some h
    exact ⟨run_bound h, r, found, hr, hfound, rfl, assembles_dedupe ha hparts ht⟩

end Oracle

def FileKind.isStray : FileKind → Bool
  | .block id => !isComposite id.file
  | _ => false

def Engine.candidates (e : Engine) : List Definition :=
  e.definitions.flatMap (·.2) ++ e.bounds.flatMap (·.2.definitions)

theorem Engine.mem_candidates {e : Engine} {d : Definition} (h : e.oracle.Offers d) :
    d ∈ e.candidates := by
  rw [candidates, List.mem_append, List.mem_flatMap, List.mem_flatMap]
  rcases h with ⟨q, raw, hq, hd⟩ | ⟨q, b, hq, hd⟩
  · obtain ⟨l, r, hlr, -⟩ := List.lookup_eq_some_iff.1 hq
    exact .inl ⟨(q, raw), by simp [hlr], hd⟩
  · obtain ⟨l, r, hlr, -⟩ := List.lookup_eq_some_iff.1 hq
    exact .inr ⟨(q, b), by simp [hlr], hd⟩

theorem Engine.namesComposites {e : Engine}
    (h : ∀ d ∈ e.candidates, (FileKind.classify d.file).isStray = false) :
    e.oracle.NamesComposites := by
  intro d hd id hk
  simpa [hk, FileKind.isStray] using h d (mem_candidates hd)

def Engine.mixed : Engine where
  definitions := [(("/src/util.ts", 0),
    [{ file := "/src/Foo.vue?vue&type=script&lang.ts", extent := ⟨5, 3⟩, context := some ⟨4, 9⟩ },
      { file := "/src/Bar.vue.ts", extent := ⟨12, 3⟩, context := some ⟨10, 20⟩ },
      { file := "/src/b.ts", extent := ⟨1, 2⟩ },
      { file := "/src/b.ts", extent := ⟨1, 2⟩, name := "again" }])]

def Engine.mixedResults : List Definition :=
  [{ file := "/src/Foo.vue", extent := .placeholder, context := some .placeholder },
    { file := "/src/Bar.vue", extent := .placeholder, context := some ⟨10, 20⟩ },
    { file := "/src/b.ts", extent := ⟨1, 2⟩ }]

theorem Engine.run_mixed : ∃ u, (Engine.mixed.oracle.definitions 2 ("/src/util.ts", 0)).run
    { resolving := { workspace := { options := .default } } } = some (some mixedResults, u) := by
  have h : ((Engine.mixed.oracle.definitions 2 ("/src/util.ts", 0)).run
      { resolving := { workspace := { options := .default } } }).map (·.1) =
        some (some mixedResults) := by decide +kernel
  obtain ⟨⟨r, u⟩, hrun, rfl⟩ := Option.map_eq_some_iff.1 h
  exact ⟨u, hrun⟩

theorem Oracle.results_assembled_mixed :
    Engine.mixed.oracle.NamesComposites ∧ ∃ u : Trail,
      (Resolve.definitions Engine.mixed ("/src/util.ts", 0)).run
          { workspace := { options := .default } } = (some Engine.mixedResults, u.resolving) ∧
        ∃ r raw, Engine.mixed.oracle.Assembles 1 ("/src/util.ts", 0) raw
          (.asked .definition ("/src/util.ts", 0) r { workspace := { options := .default } }) u
          Engine.mixedResults := by
  have ha : Engine.mixed.oracle.NamesComposites :=
    Engine.namesComposites (by decide +kernel)
  obtain ⟨u, hrun⟩ := Engine.run_mixed
  obtain ⟨hmodel, r, raw, -, -, hraw⟩ := (Oracle.results_assembled ha 1 _ _).1 _ u hrun
  exact ⟨ha, u, hmodel _ rfl, r.1, raw, hraw⟩

namespace Resolve

def Shown (v : Option View) (e e' : Extent) : Prop :=
  e' = .placeholder ∨
    ∃ w, v = some w ∧ w.absoluteAt? e.start = some e'.start ∧ e' = compositeExtent w e

theorem shown_compositeExtent (v : View) (e : Extent) : Shown (some v) e (compositeExtent v e) := by
  cases h : v.absoluteAt? e.start with
  | none => exact .inl (by simp only [compositeExtent, h])
  | some start => exact .inr ⟨v, rfl, by simp only [compositeExtent, h], rfl⟩

/-- `x` is the candidate `d` under the name of the real file. The extents of a candidate in a block
are shown by the block, as things were in `s`; of one in a main module only the first is replaced. -/
structure Rewrites (s : Resolving) (d x : Definition) : Prop where
  file : x.file = (FileKind.classify d.file).realName d.file
  labels : (x.name, x.kind, x.container) = (d.name, d.kind, d.container)
  extents : match FileKind.classify d.file with
    | .plain | .composite => x.extent = d.extent ∧ x.context = d.context
    | .block _ => Shown ((blockView d.file).run s).1 d.extent x.extent ∧
      Option.Rel (Shown ((blockView d.file).run s).1) d.context x.context
    | .main _ => x.extent = .placeholder ∧ x.context = d.context

theorem rel_map {f : Extent → Extent} {R : Extent → Extent → Prop} (h : ∀ e, R e (f e))
    (c : Option Extent) : Option.Rel R c (c.map f) := by
  cases c with
  | none => exact .none
  | some e => exact .some (h e)

theorem Stems.rewrites {s : Resolving} {d x : Definition} (h : Stems s d x) : Rewrites s d x := by
  cases h with
  | same hk =>
    rcases hk with hk | hk
    · exact ⟨by rw [hk]; rfl, rfl, by rw [hk]; exact ⟨rfl, rfl⟩⟩
    · exact ⟨by rw [hk]; rfl, rfl, by rw [hk]; exact ⟨rfl, rfl⟩⟩
  | unplaced hk hv =>
    refine ⟨by rw [hk]; rfl, rfl, ?_⟩
    rw [hk, hv]
    exact ⟨.inl rfl, rel_map (fun _ => .inl rfl) d.context⟩
  | mapped hk hv =>
    refine ⟨by rw [hk]; rfl, rfl, ?_⟩
    rw [hk, hv]
    exact ⟨shown_compositeExtent _ _, rel_map (shown_compositeExtent _) d.context⟩
  | stranded hk => exact ⟨by rw [hk]; rfl, rfl, by rw [hk]; exact ⟨rfl, rfl⟩⟩

end Resolve

namespace Oracle

/-- Each definition that resolution gives stands for a candidate that the engine named. In a block
both its extents are shown by the block or placeholders; in a main module the context stays as it
was. -/
theorem results_rewritten (a : Oracle) (depth : Nat) (p : Place) (s : Resolving) :
    (∀ l u, (a.definitions depth p).run { resolving := s } = some (some l, u) →
      (∀ e : Engine, e.oracle = a → (Resolve.definitions e p).run s = (some l, u.resolving)) ∧
      ∀ x ∈ l, ∃ c ∈ u.turns, a.Offers c.1 ∧ Rewrites c.2 c.1 x) ∧
    ∀ b u, (a.bound depth p).run { resolving := s } = some (some b, u) →
      (∀ e : Engine, e.oracle = a → (Resolve.bound e p).run s = (some b, u.resolving)) ∧
      ∀ x ∈ b.definitions, ∃ c ∈ u.turns, a.Offers c.1 ∧ Rewrites c.2 c.1 x := by
  have rewritten : ∀ {t u : Trail} {l : List Definition}, Trail.Traces a depth t u l → ∀ x ∈ l,
      ∃ c ∈ u.turns, a.Offers c.1 ∧ Rewrites c.2 c.1 x := by
    intro t u l ht x hx
    obtain ⟨c, hc, hs⟩ := ht.found x hx
    exact ⟨c, hc, ht.regular.offered c hc, hs.rewrites⟩
  constructor
  · intro l u h
    exact ⟨run_definitions h, rewritten (traces_definitions h)⟩
  · intro b u h
    exact ⟨run_bound h, rewritten (traces_bound h)⟩

/-- The context of the candidate in the main module comes back under the name of the composite
file. -/
theorem results_rewritten_mixed : ∃ u : Trail,
    (Resolve.definitions Engine.mixed ("/src/util.ts", 0)).run
        { workspace := { options := .default } } = (some Engine.mixedResults, u.resolving) ∧
      ∃ x ∈ Engine.mixedResults, ∃ c ∈ u.turns, Rewrites c.2 c.1 x ∧
        FileKind.classify c.1.file = .main "/src/Bar.vue" ∧ x.file = "/src/Bar.vue" ∧
        x.context = c.1.context ∧ x.context = some ⟨10, 20⟩ := by
  obtain ⟨u, hrun⟩ := Engine.run_mixed
  obtain ⟨hmodel, hall⟩ := (results_rewritten Engine.mixed.oracle 2 _ _).1 _ u hrun
  let x : Definition := { file := "/src/Bar.vue", extent := .placeholder, context := some ⟨10, 20⟩ }
  have hx : x ∈ Engine.mixedResults := by decide
  obtain ⟨c, hc, ho, hr⟩ := hall x hx
  have hmain : FileKind.classify c.1.file = .main "/src/Bar.vue" := by
    have hkinds : ∀ d ∈ Engine.mixed.candidates, FileKind.classify d.file = .main "/src/Bar.vue" ∨
        (FileKind.classify d.file).realName d.file ≠ "/src/Bar.vue" := by decide +kernel
    exact (hkinds c.1 (Engine.mem_candidates ho)).resolve_right fun hne => hne hr.file.symm
  have hcontext := hr.extents
  rw [hmain] at hcontext
  exact ⟨u, hmodel _ rfl, x, hx, c, hc, hr, hmain, rfl, hcontext.2, rfl⟩

end Oracle

end BlockLens
