import BlockLens.Proofs.Resolve.Search

set_option autoImplicit false

namespace BlockLens

open Resolve

theorem Resolve.mem_of_mem_dedupe {l : List Definition} {x : Definition} (h : x ∈ dedupe l) :
    x ∈ l := by
  induction l with
  | nil => exact h
  | cons d l ih =>
    rcases List.mem_cons.1 h with rfl | h
    · exact List.mem_cons_self
    · exact List.mem_cons_of_mem d (ih (List.mem_filter.1 h).1)

def Oracle.Offers (a : Oracle) (d : Definition) : Prop :=
  (∃ q raw, a.definitionsAt? q = some raw ∧ d ∈ raw) ∨
    ∃ q b, a.boundAt? q = some b ∧ d ∈ b.definitions

namespace Trail

structure Regular (a : Oracle) (limit : Nat) (t : Trail) : Prop where
  chains : ∀ l ∈ t.chains, l.Nodup ∧ l.length ≤ limit
  offered : ∀ c ∈ t.turns, a.Offers c.1

def Accounts (t : Trail) (x : Definition) : Prop := ∃ c ∈ t.turns, Stems c.2 c.1 x

structure Traces (a : Oracle) (limit : Nat) (t u : Trail) (found : List Definition) : Prop where
  regular : u.Regular a limit
  turns : t.turns ⊆ u.turns
  found : ∀ x ∈ found, u.Accounts x

variable {a : Oracle} {limit : Nat} {t u w : Trail}

theorem regular_start (a : Oracle) (limit : Nat) (s : Resolving) :
    Regular a limit { resolving := s } :=
  ⟨by simp, by simp⟩

theorem Regular.takeUp (h : t.Regular a limit) {chain : List Place} (hd : chain.Nodup)
    (hl : chain.length ≤ limit) : Regular a limit { t with chains := t.chains ++ [chain] } where
  chains l hm := by
    rcases List.mem_append.1 hm with hm | hm
    · exact h.chains l hm
    · exact List.mem_singleton.1 hm ▸ ⟨hd, hl⟩
  offered := h.offered

theorem Regular.turn (h : t.Regular a limit) {d : Definition} (hd : a.Offers d) :
    Regular a limit { t with turns := t.turns ++ [(d, t.resolving)] } where
  chains := h.chains
  offered c hc := by
    rcases List.mem_append.1 hc with hc | hc
    · exact h.offered c hc
    · exact List.mem_singleton.1 hc ▸ hd

theorem Traces.nothing (h : t.Regular a limit) : Traces a limit t t [] := ⟨h, fun _ => id, by simp⟩

theorem Traces.append {l k : List Definition} (h : Traces a limit t u l)
    (h' : Traces a limit u w k) : Traces a limit t w (l ++ k) where
  regular := h'.regular
  turns := fun _ hc => h'.turns (h.turns hc)
  found x hx := by
    rcases List.mem_append.1 hx with hx | hx
    · obtain ⟨c, hc, hs⟩ := h.found x hx
      exact ⟨c, h'.turns hc, hs⟩
    · exact h'.found x hx

theorem Traces.subset {l k : List Definition} (h : Traces a limit t u l) (hk : k ⊆ l) :
    Traces a limit t u k :=
  ⟨h.regular, h.turns, fun x hx => h.found x (hk hx)⟩

end Trail

namespace Search

open Trail

variable {α β : Type} {a : Oracle} {limit : Nat} {f : Place → Search (Option (List Definition))}

def Traceable (a : Oracle) (limit : Nat) (m : Search α) (found : α → List Definition) : Prop :=
  ∀ t x u, t.Regular a limit → m.run t = some (x, u) → Traces a limit t u (found x)

theorem traceable_pure {x : α} {found : α → List Definition} (h : found x = []) :
    Traceable a limit (pure x) found := by
  intro t y u ht hrun
  obtain ⟨rfl, rfl⟩ := Prod.mk.inj (Option.some.inj hrun)
  exact h ▸ .nothing ht

theorem traceable_failure (found : α → List Definition) : Traceable a limit failure found := by
  intro t x u _ h
  contradiction

theorem Traceable.takeUp {m : Search α} {found : α → List Definition}
    (h : Traceable a limit m found) {chain : List Place} (hd : chain.Nodup)
    (hl : chain.length ≤ limit) : Traceable a limit (do takeUp chain; m) found := by
  intro t x u ht hrun
  have hm : Traces a limit { t with chains := t.chains ++ [chain] } u (found x) :=
    h _ x u (ht.takeUp hd hl) hrun
  exact ⟨hm.regular, hm.turns, hm.found⟩

theorem traceable_whenSome {r : Resolve (Option β)} {g : β → Search (Option α)}
    {found : Option α → List Definition} (h₀ : found none = [])
    (h : ∀ s x, (r.run s).1 = some x → Traceable a limit (g x) found) :
    Traceable a limit (whenSome r g) found := by
  intro t x u ht hrun
  have hv : Regular a limit { t with resolving := (r.run t.resolving).2 } := { ht with }
  cases hx : (r.run t.resolving).1 with
  | none =>
    rw [run_whenSome_none hx] at hrun
    obtain ⟨rfl, rfl⟩ := Prod.mk.inj (Option.some.inj hrun)
    exact h₀ ▸ ⟨hv, fun _ => id, by simp⟩
  | some y =>
    rw [run_whenSome_some hx] at hrun
    have hm := h t.resolving y hx _ x u hv hrun
    exact ⟨hm.regular, hm.turns, hm.found⟩

/-- A candidate stands for itself, or else for what is found further on. -/
theorem traceable_normalize (hf : ∀ p, Traceable a limit (f p) (·.getD [])) {d : Definition}
    (hd : a.Offers d) : Traceable a limit (normalize f d) id := by
  intro t x u ht h
  let l := ((lead d).run t.resolving).1
  let v : Trail :=
    { t with resolving := ((lead d).run t.resolving).2, turns := t.turns ++ [(d, t.resolving)] }
  have hv : v.Regular a limit := { ht.turn hd with }
  have hown : Traces a limit t v l.own :=
    ⟨hv, by simp [v], fun x hx => ⟨(d, t.resolving), by simp [v], stems_of_lead hx⟩⟩
  have hl : (pursue f l).run v = some (x, u) := h
  cases hlead : l with
  | settled found =>
    rw [hlead] at hown hl
    obtain ⟨rfl, rfl⟩ := Prod.mk.inj (Option.some.inj hl)
    exact hown
  | onward p otherwise =>
    rw [hlead] at hown hl
    obtain ⟨r, w, hr, hl⟩ := run_bind_eq_some.1 hl
    obtain ⟨rfl, rfl⟩ := Prod.mk.inj (Option.some.inj hl)
    exact (hown.append (hf p v r _ hv hr)).subset (orElse_subset r otherwise)

theorem traceable_mapM (hf : ∀ p, Traceable a limit (f p) (·.getD [])) {ds : List Definition}
    (hds : ∀ d ∈ ds, a.Offers d) : Traceable a limit (ds.mapM (normalize f)) List.flatten := by
  induction ds with
  | nil => exact traceable_pure rfl
  | cons d ds ih =>
    intro t x u ht h
    rw [List.mapM_cons] at h
    obtain ⟨y, v, hy, h⟩ := run_bind_eq_some.1 h
    obtain ⟨ys, w, hys, h⟩ := run_bind_eq_some.1 h
    obtain ⟨rfl, rfl⟩ := Prod.mk.inj (Option.some.inj h)
    have h₁ := traceable_normalize hf (hds d (by simp)) t y v ht hy
    have h₂ := ih (fun c hc => hds c (by simp [hc])) v ys w h₁.regular hys
    exact h₁.append h₂

theorem traceable_dedupe (hf : ∀ p, Traceable a limit (f p) (·.getD [])) {ds : List Definition}
    (hds : ∀ d ∈ ds, a.Offers d) {g : List Definition → α} {found : α → List Definition}
    (hg : ∀ l, found (g l) = l) :
    Traceable a limit (do return g (dedupe (← ds.mapM (normalize f)).flatten)) found := by
  intro t x u ht h
  obtain ⟨parts, w, hp, h⟩ := run_bind_eq_some.1 h
  obtain ⟨rfl, rfl⟩ := Prod.mk.inj (Option.some.inj h)
  have hm := traceable_mapM hf hds t parts _ ht hp
  exact hg _ ▸ hm.subset fun x hx => mem_of_mem_dedupe hx

theorem traceable_resolve (hf : ∀ p, Traceable a limit (f p) (·.getD [])) (q : Place) :
    Traceable a limit (a.resolve f q) (·.getD []) := by
  refine traceable_whenSome rfl fun s raw hq => ?_
  exact traceable_dedupe hf (fun d hd => .inl ⟨q, raw, hq, hd⟩) fun _ => rfl

theorem traceable_follow {depth : Nat} {visited : List Place} (hv : visited.Nodup)
    (hd : visited.length + depth ≤ limit) (p : Place) :
    Traceable a limit (a.follow depth visited p) (·.getD []) := by
  induction depth generalizing visited p with
  | zero => exact traceable_failure _
  | succ depth ih =>
    unfold Oracle.follow
    split
    · exact traceable_pure rfl
    · next hp =>
      have hn : (p :: visited).Nodup := List.nodup_cons.2 ⟨by simpa using hp, hv⟩
      have hl : (p :: visited).length + depth ≤ limit := by
        simp only [List.length_cons]
        omega
      exact (traceable_resolve (ih hn hl) p).takeUp hn (by omega)

theorem traceable_onward (a : Oracle) (depth : Nat) (p q : Place) :
    Traceable a (depth + 1) (a.follow depth [p] q) (·.getD []) :=
  traceable_follow (by simp) (by simp only [List.length_singleton]; omega) q

theorem traceable_definitions (a : Oracle) (depth : Nat) (p : Place) :
    Traceable a depth (a.definitions depth p) (·.getD []) := by
  cases depth with
  | zero => exact traceable_failure _
  | succ depth =>
    have hf := traceable_onward a depth p
    refine Traceable.takeUp ?_ (by simp) (by simp)
    exact traceable_whenSome rfl fun _ r _ => traceable_resolve hf r.1

theorem traceable_bound (a : Oracle) (depth : Nat) (p : Place) :
    Traceable a depth (a.bound depth p) (·.elim [] (·.definitions)) := by
  cases depth with
  | zero => exact traceable_failure _
  | succ depth =>
    have hf := traceable_onward a depth p
    refine Traceable.takeUp ?_ (by simp) (by simp)
    refine traceable_whenSome rfl fun _ r _ => traceable_whenSome rfl fun _ b hb => ?_
    have hoffer : ∀ d ∈ b.definitions, a.Offers d := fun d hd => .inr ⟨r.1, b, hb, hd⟩
    exact traceable_dedupe hf hoffer (g := fun l => some (Bound.mk l (r.2 b.extent))) fun _ => rfl

end Search

end BlockLens
