import Mathlib.Data.Set.Card
import BlockLens.Document.Defaults
import BlockLens.Proofs.Resolve.Trail
/-!
Resolution ends. A place is taken up inside another only if it is new there, and leads further only
if the engine answers it; a chain of resolutions is therefore as long as there are answered places,
but for the first place and the last. An engine with finitely many answers is a table.
-/

set_option autoImplicit false

namespace BlockLens

open Resolve

def Oracle.answered (a : Oracle) : Set Place := {q | (a.definitionsAt? q).isSome = true}

def Oracle.bounded (a : Oracle) : Set Place := {q | (a.boundAt? q).isSome = true}

theorem lookup_filterMap {β : Type} (f : Place → Option β) (keys : List Place) (q : Place)
    (h : (f q).isSome = true → q ∈ keys) :
    (keys.filterMap fun k => (f k).map (k, ·)).lookup q = f q := by
  induction keys with
  | nil =>
    have hq : f q = none := by simpa using h
    rw [hq]
    rfl
  | cons k keys ih =>
    by_cases hk : q = k
    · subst hk
      cases hq : f q with
      | none => simpa [hq] using ih fun h => by simp [hq] at h
      | some b => simp [hq]
    · have hq := ih fun h' => by simpa [hk] using h h'
      have hne : (q == k) = false := by simpa using hk
      cases hf : f k with
      | none => simpa [hf] using hq
      | some b => simpa [hf, List.lookup_cons, hne] using hq

theorem exists_table {β : Type} {f : Place → Option β} (h : {q | (f q).isSome = true}.Finite) :
    ∃ table : List (Place × β), ∀ q, table.lookup q = f q := by
  refine ⟨h.toFinset.toList.filterMap fun k => (f k).map (k, ·), fun q => ?_⟩
  exact lookup_filterMap f _ q fun hq => by simpa using hq

theorem Oracle.exists_engine {a : Oracle} (hd : a.answered.Finite) (hb : a.bounded.Finite) :
    ∃ e : Engine, e.oracle = a := by
  obtain ⟨definitions, hdefinitions⟩ := exists_table hd
  obtain ⟨bounds, hbounds⟩ := exists_table hb
  exact ⟨⟨definitions, bounds⟩, congrArg₂ Oracle.mk (funext hdefinitions) (funext hbounds)⟩

namespace Search

variable {α β : Type}

def Ends (m : Search α) : Prop := ∀ t, ∃ x u, m.run t = some (x, u)

theorem ends_pure (x : α) : Ends (pure x) := fun t => ⟨x, t, rfl⟩

theorem Ends.bind {m : Search α} {f : α → Search β} (h : Ends m) (hf : ∀ x, Ends (f x)) :
    Ends (m >>= f) := by
  intro t
  obtain ⟨x, u, hx⟩ := h t
  obtain ⟨y, w, hy⟩ := hf x u
  exact ⟨y, w, run_bind_eq_some.2 ⟨x, u, hx, hy⟩⟩

theorem ends_flat (r : Resolve α) : Ends (flat r) := fun _ => ⟨_, _, rfl⟩

theorem ends_whenSome {r : Resolve (Option α)} {g : α → Search (Option β)}
    (h : ∀ s x, (r.run s).1 = some x → Ends (g x)) : Ends (whenSome r g) := by
  intro t
  cases hx : (r.run t.resolving).1 with
  | none => exact ⟨none, _, run_whenSome_none hx⟩
  | some x =>
    rw [run_whenSome_some hx]
    exact h _ x hx _

theorem Ends.takeUp {m : Search α} (h : Ends m) (chain : List Place) : Ends (do takeUp chain; m) :=
  fun t => h { t with chains := t.chains ++ [chain] }

theorem Ends.mapM {f : α → Search β} (h : ∀ x, Ends (f x)) (l : List α) : Ends (l.mapM f) := by
  induction l with
  | nil => exact ends_pure []
  | cons x l ih =>
    rw [List.mapM_cons]
    exact (h x).bind fun y => ih.bind fun ys => ends_pure (y :: ys)

variable {a : Oracle} {f : Place → Search (Option (List Definition))}

theorem ends_normalize (hf : ∀ p, Ends (f p)) (d : Definition) : Ends (normalize f d) := by
  have hpursue : ∀ l, Ends (pursue f l) := by
    intro l
    cases l with
    | settled found => exact ends_pure found
    | onward p otherwise => exact (hf p).bind fun _ => ends_pure _
  exact fun t =>
    (ends_flat (lead d)).bind hpursue { t with turns := t.turns ++ [(d, t.resolving)] }

/-- Only an answered place leads further. -/
theorem ends_resolve {q : Place} (hf : q ∈ a.answered → ∀ p, Ends (f p)) : Ends (a.resolve f q) := by
  refine ends_whenSome fun s raw hq => ?_
  have hmem : q ∈ a.answered := Option.isSome_iff_exists.2 ⟨raw, hq⟩
  exact (Ends.mapM (ends_normalize (hf hmem)) raw).bind fun _ => ends_pure _

/-- The answered places that are not in resolution yet bound the depth. -/
theorem ends_follow (ha : a.answered.Finite) {depth : Nat} {visited : List Place}
    (h : (a.answered \ {q | q ∈ visited}).ncard < depth) (p : Place) :
    Ends (a.follow depth visited p) := by
  induction depth generalizing visited p with
  | zero => omega
  | succ depth ih =>
    unfold Oracle.follow
    split
    · exact ends_pure none
    · next hv =>
      have hp : p ∉ visited := by simpa using hv
      refine (ends_resolve fun hmem => ih ?_).takeUp _
      have hlt : (a.answered \ {q | q ∈ p :: visited}).ncard <
          (a.answered \ {q | q ∈ visited}).ncard := by
        refine Set.ncard_lt_ncard ?_ ha.sdiff
        refine ⟨fun q hq => ?_, fun hsub => ?_⟩
        · exact ⟨hq.1, fun hm => hq.2 (List.mem_cons_of_mem p hm)⟩
        · simpa using hsub ⟨hmem, hp⟩
      omega

theorem ends_onward (ha : a.answered.Finite) (p q : Place) :
    Ends (a.follow (a.answered.ncard + 1) [p] q) :=
  ends_follow ha (Nat.lt_succ_of_le (Set.ncard_le_ncard Set.sdiff_subset ha)) q

theorem ends_definitions (ha : a.answered.Finite) (p : Place) :
    Ends (a.definitions (a.answered.ncard + 2) p) := by
  refine Ends.takeUp ?_ [p]
  exact ends_whenSome fun _ _ _ => ends_resolve fun _ => ends_onward ha p

theorem ends_bound (ha : a.answered.Finite) (p : Place) :
    Ends (a.bound (a.answered.ncard + 2) p) := by
  refine Ends.takeUp ?_ [p]
  refine ends_whenSome fun _ _ _ => ends_whenSome fun _ b _ => ?_
  exact (Ends.mapM (ends_normalize (ends_onward ha p)) b.definitions).bind fun _ => ends_pure _

/-- The search runs to its end with what `r` gives, and no place is in resolution twice at a time or
more than `limit` deep. -/
def Completes (m : Search α) (r : Resolve α) (limit : Nat) (s : Resolving) : Prop :=
  ∃ x t, m.run { resolving := s } = some (x, t) ∧ r.run s = (x, t.resolving) ∧
    ∀ chain ∈ t.chains, chain.Nodup ∧ chain.length ≤ limit

theorem completes_of_ends {m : Search α} {r : Resolve α} {limit : Nat}
    {found : α → List Definition} (he : Ends m) (hs : Simulates m r)
    (ht : Traceable a limit m found) (s : Resolving) : Completes m r limit s := by
  obtain ⟨x, t, hrun⟩ := he { resolving := s }
  have hreg := (ht _ x t (Trail.regular_start a limit s) hrun).regular
  exact ⟨x, t, hrun, hs _ x t hrun, hreg.chains⟩

end Search

open Search in
/-- With finitely many answered places, both questions have an answer everywhere, and the depth of
the search is at most two more than the number of these places. -/
theorem Oracle.resolution_completes {a : Oracle} (hd : a.answered.Finite) (hb : a.bounded.Finite) :
    ∃ e : Engine, e.oracle = a ∧ ∀ (p : Place) (s : Resolving),
      Completes (a.definitions (a.answered.ncard + 2) p) (Resolve.definitions e p)
        (a.answered.ncard + 2) s ∧
      Completes (a.bound (a.answered.ncard + 2) p) (Resolve.bound e p)
        (a.answered.ncard + 2) s := by
  obtain ⟨e, rfl⟩ := Oracle.exists_engine hd hb
  refine ⟨e, rfl, fun p s => ⟨?_, ?_⟩⟩
  · exact completes_of_ends (ends_definitions hd p) (simulates_definitions e _ p)
      (traceable_definitions _ _ p) s
  · exact completes_of_ends (ends_bound hd p) (simulates_bound e _ p) (traceable_bound _ _ p) s

def Engine.circular : Engine where
  definitions :=
    [(("/src/util.ts", 0), [{ file := "/src/Foo.vue.ts", extent := ⟨12, 3⟩ }]),
      (("/src/Foo.vue.ts", 12), [{ file := "/src/Foo.vue.ts", extent := ⟨12, 3⟩ }])]

theorem Oracle.resolution_completes_circular :
    Engine.circular.oracle.answered.ncard = 2 ∧ Engine.circular.oracle.bounded.Finite ∧
      ∃ (e : Engine) (t : Trail), e.oracle = Engine.circular.oracle ∧
        (Resolve.definitions e ("/src/util.ts", 0)).run { workspace := { options := .default } } =
          (some [{ file := "/src/Foo.vue", extent := .placeholder }], t.resolving) ∧
        ∀ chain ∈ t.chains, chain.Nodup ∧ chain.length ≤ 4 := by
  have hset : Engine.circular.oracle.answered = {("/src/util.ts", 0), ("/src/Foo.vue.ts", 12)} := by
    ext q
    simp [Oracle.answered, Engine.oracle, Engine.definitionsAt?, Engine.circular]
  have hcard : Engine.circular.oracle.answered.ncard = 2 := by
    rw [hset, Set.ncard_pair (by decide)]
  have hnone : Engine.circular.oracle.bounded = ∅ := by
    ext q
    simp [Oracle.bounded, Engine.oracle, Engine.boundAt?, Engine.circular]
  have hfin : Engine.circular.oracle.bounded.Finite := hnone ▸ Set.finite_empty
  obtain ⟨e, he, hall⟩ :=
    Oracle.resolution_completes (hset ▸ Set.toFinite _ : Engine.circular.oracle.answered.Finite) hfin
  obtain ⟨x, t, hrun, hmodel, hchains⟩ :=
    (hall ("/src/util.ts", 0) { workspace := { options := .default } }).1
  rw [hcard] at hrun hchains
  have hvalue : ((Engine.circular.oracle.definitions 4 ("/src/util.ts", 0)).run
      { resolving := { workspace := { options := .default } } }).map (·.1) =
        some (some [{ file := "/src/Foo.vue", extent := .placeholder }]) := by decide +kernel
  rw [hrun] at hvalue
  obtain rfl := Option.some.inj hvalue
  exact ⟨hcard, hfin, e, t, he, hmodel, hchains⟩

end BlockLens
