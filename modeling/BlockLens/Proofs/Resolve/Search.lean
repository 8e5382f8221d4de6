import BlockLens.Proofs.Resolve.Lead
/-!
Resolution with an engine of any size. It need not end there, so that a search is cut short at a
depth. A search that is not cut short does what resolution does, and keeps a trail: the places in
resolution whenever one more is taken up, and each candidate at its turn.
-/

set_option autoImplicit false

namespace BlockLens

structure Oracle where
  definitionsAt? : Place → Option (List Definition)
  boundAt? : Place → Option Bound

def Engine.oracle (e : Engine) : Oracle := ⟨e.definitionsAt?, e.boundAt?⟩

structure Trail where
  resolving : Resolving
  /-- The places in resolution inside one another, the last one first, each time one is taken up. -/
  chains : List (List Place) := []
  /-- The candidates, each with the state of things at its turn. -/
  turns : List (Definition × Resolving) := []

abbrev Search := StateT Trail Option

namespace Search

def flat {α : Type} (m : Resolve α) : Search α := fun t =>
  some ((m.run t.resolving).1, { t with resolving := (m.run t.resolving).2 })

def whenSome {α β : Type} (m : Resolve (Option α)) (g : α → Search (Option β)) :
    Search (Option β) := do
  match ← flat m with
  | none => return none
  | some x => g x

def takeUp (chain : List Place) : Search Unit :=
  modify fun t => { t with chains := t.chains ++ [chain] }

def turn (d : Definition) : Search Unit :=
  modify fun t => { t with turns := t.turns ++ [(d, t.resolving)] }

def pursue (follow : Place → Search (Option (List Definition))) : Lead → Search (List Definition)
  | .settled found => return found
  | .onward p otherwise => return Resolve.orElse (← follow p) otherwise

def normalize (follow : Place → Search (Option (List Definition))) (d : Definition) :
    Search (List Definition) := do
  turn d
  pursue follow (← flat (Resolve.lead d))

end Search

namespace Oracle

open Search

def resolve (a : Oracle) (follow : Place → Search (Option (List Definition))) (q : Place) :
    Search (Option (List Definition)) :=
  whenSome (Resolve.ask .definition q (a.definitionsAt? q)) fun raw =>
    return some (Resolve.dedupe (← raw.mapM (Search.normalize follow)).flatten)

/-- The depth bounds how many places are in resolution inside one another. -/
def follow (a : Oracle) : Nat → List Place → Place → Search (Option (List Definition))
  | 0, _, _ => failure
  | depth + 1, visited, p =>
    if visited.contains p then return none
    else do
      takeUp (p :: visited)
      a.resolve (a.follow depth (p :: visited)) p

def definitions (a : Oracle) : Nat → Place → Search (Option (List Definition))
  | 0, _ => failure
  | depth + 1, p => do
    takeUp [p]
    whenSome (Resolve.spot p) fun r => a.resolve (a.follow depth [p]) r.1

def bound (a : Oracle) : Nat → Place → Search (Option Bound)
  | 0, _ => failure
  | depth + 1, p => do
    takeUp [p]
    whenSome (Resolve.spot p) fun r =>
      whenSome (Resolve.ask .bound r.1 (a.boundAt? r.1)) fun b => do
        let found ← b.definitions.mapM (Search.normalize (a.follow depth [p]))
        return some ⟨Resolve.dedupe found.flatten, r.2 b.extent⟩

end Oracle

namespace Search

variable {α β : Type}

theorem run_bind_eq_some {m : Search α} {f : α → Search β} {t w : Trail} {y : β} :
    (m >>= f).run t = some (y, w) ↔
      ∃ x u, m.run t = some (x, u) ∧ (f x).run u = some (y, w) := by
  simp [Option.bind_eq_some_iff]

theorem run_flat_bind {r : Resolve α} {g : α → Search β} (t : Trail) :
    (flat r >>= g).run t =
      (g (r.run t.resolving).1).run { t with resolving := (r.run t.resolving).2 } := rfl

theorem run_whenSome_none {r : Resolve (Option α)} {g : α → Search (Option β)} {t : Trail}
    (h : (r.run t.resolving).1 = none) :
    (whenSome r g).run t = some (none, { t with resolving := (r.run t.resolving).2 }) := by
  rw [whenSome, run_flat_bind, h]
  rfl

theorem run_whenSome_some {r : Resolve (Option α)} {g : α → Search (Option β)} {t : Trail} {x : α}
    (h : (r.run t.resolving).1 = some x) :
    (whenSome r g).run t = (g x).run { t with resolving := (r.run t.resolving).2 } := by
  rw [whenSome, run_flat_bind, h]

theorem of_run_whenSome {r : Resolve (Option α)} {g : α → Search (Option β)} {t u : Trail} {y : β}
    (h : (whenSome r g).run t = some (some y, u)) :
    ∃ x, (r.run t.resolving).1 = some x ∧
      (g x).run { t with resolving := (r.run t.resolving).2 } = some (some y, u) := by
  cases hx : (r.run t.resolving).1 with
  | none =>
    rw [run_whenSome_none hx] at h
    simp at h
  | some x => exact ⟨x, rfl, run_whenSome_some hx ▸ h⟩

/-- A search that is not cut short does what `r` does. -/
def Simulates (m : Search α) (r : Resolve α) : Prop :=
  ∀ t x u, m.run t = some (x, u) → r.run t.resolving = (x, u.resolving)

theorem simulates_pure (x : α) : Simulates (pure x) (pure x) := by
  intro t y u h
  obtain ⟨rfl, rfl⟩ := Prod.mk.inj (Option.some.inj h)
  rfl

theorem simulates_failure (r : Resolve α) : Simulates failure r := by
  intro t x u h
  contradiction

theorem simulates_flat (r : Resolve α) : Simulates (flat r) r := by
  intro t x u h
  obtain ⟨rfl, rfl⟩ := Prod.mk.inj (Option.some.inj h)
  rfl

theorem Simulates.bind {m : Search α} {r : Resolve α} {f : α → Search β} {g : α → Resolve β}
    (h : Simulates m r) (hf : ∀ x, Simulates (f x) (g x)) : Simulates (m >>= f) (r >>= g) := by
  intro t y w hrun
  obtain ⟨x, u, hx, hy⟩ := run_bind_eq_some.1 hrun
  rw [StateT.run_bind, h t x u hx]
  exact hf x u y w hy

theorem simulates_whenSome (r : Resolve (Option α)) {f : α → Search (Option β)}
    {g : α → Resolve (Option β)} (h : ∀ x, Simulates (f x) (g x)) :
    Simulates (whenSome r f) (Resolve.whenSome r g) := by
  refine (simulates_flat r).bind fun x => ?_
  cases x with
  | none => exact simulates_pure none
  | some x => exact h x

theorem Simulates.takeUp {m : Search α} {r : Resolve α} (h : Simulates m r) (chain : List Place) :
    Simulates (do takeUp chain; m) r :=
  fun t => h { t with chains := t.chains ++ [chain] }

theorem Simulates.turn {m : Search α} {r : Resolve α} (h : Simulates m r) (d : Definition) :
    Simulates (do turn d; m) r :=
  fun t => h { t with turns := t.turns ++ [(d, t.resolving)] }

theorem Simulates.mapM {f : α → Search β} {g : α → Resolve β} (h : ∀ x, Simulates (f x) (g x))
    (l : List α) : Simulates (l.mapM f) (l.mapM g) := by
  induction l with
  | nil => exact simulates_pure []
  | cons x l ih =>
    rw [List.mapM_cons, List.mapM_cons]
    exact (h x).bind fun y => ih.bind fun ys => simulates_pure (y :: ys)

variable {f : Place → Search (Option (List Definition))}
  {g : Place → Resolve (Option (List Definition))}

theorem simulates_normalize (h : ∀ p, Simulates (f p) (g p)) (d : Definition) :
    Simulates (normalize f d) (Resolve.normalize g d) := by
  have hpursue : ∀ l, Simulates (pursue f l) (Resolve.pursue g l) := by
    intro l
    cases l with
    | settled found => exact simulates_pure found
    | onward p otherwise => exact (h p).bind fun _ => simulates_pure _
  rw [Resolve.normalize_eq]
  exact ((simulates_flat _).bind hpursue).turn d

theorem simulates_resolve (e : Engine) (h : ∀ p, Simulates (f p) (g p)) (q : Place) :
    Simulates (e.oracle.resolve f q) (Resolve.resolve e g q) :=
  simulates_whenSome _ fun raw =>
    (Simulates.mapM (simulates_normalize h) raw).bind fun _ => simulates_pure _

theorem simulates_follow (e : Engine) (depth : Nat) (visited : List Place) (p : Place) :
    Simulates (e.oracle.follow depth visited p) (Resolve.follow e visited p) := by
  induction depth generalizing visited p with
  | zero => exact simulates_failure _
  | succ depth ih =>
    unfold Oracle.follow
    split
    · next hv =>
      rw [Resolve.follow, dif_pos hv]
      exact simulates_pure none
    · next hv =>
      rw [Resolve.follow_eq e hv]
      exact (simulates_resolve e (ih _) p).takeUp _

theorem simulates_definitions (e : Engine) (depth : Nat) (p : Place) :
    Simulates (e.oracle.definitions depth p) (Resolve.definitions e p) := by
  cases depth with
  | zero => exact simulates_failure _
  | succ depth =>
    rw [Resolve.definitions_eq]
    refine Simulates.takeUp ?_ [p]
    exact simulates_whenSome _ fun r => simulates_resolve e (simulates_follow e depth [p]) r.1

theorem simulates_bound (e : Engine) (depth : Nat) (p : Place) :
    Simulates (e.oracle.bound depth p) (Resolve.bound e p) := by
  cases depth with
  | zero => exact simulates_failure _
  | succ depth =>
    have hn := simulates_normalize (simulates_follow e depth [p])
    rw [Resolve.bound_eq]
    refine Simulates.takeUp ?_ [p]
    refine simulates_whenSome _ fun r => simulates_whenSome _ fun b => ?_
    exact (Simulates.mapM hn b.definitions).bind fun _ => simulates_pure _

end Search

end BlockLens
