import BlockLens.Proofs.Overlay.Announce
import BlockLens.Proofs.Watchers.Table
import Mathlib.Data.List.Basic
import Mathlib.Data.List.Induction
/-!
Who is told of a change. After any sequence of subscriptions, of their ends and of clearings, those
are told who subscribed since the last clearing and have not given up, each once and in the order in
which they came; and just the files that somebody would be told of are watched. It is the same where
subscriptions are kept by file and an ended one is looked for under its own file only.
-/

set_option autoImplicit false

namespace BlockLens.Subscribers

/-- What is done with subscriptions, which are numbered in the order in which they are taken. -/
inductive Event where
  | subscribe (file : String)
  | drop (n : Nat)
  | clear
  | notify (file : String) (changes : List Change) (version : Int)

def Event.isSubscribe : Event → Bool
  | .subscribe _ => true
  | .drop _ | .clear | .notify .. => false

def exec (ov : Overlay) : Event → Overlay
  | .subscribe file => (ov.watch file).2
  | .drop n => ov.unwatch n
  | .clear => { ov with watchers := ov.watchers.clear }
  | .notify file changes version => (ov.notify file changes version).overlay

def run (w : Workspace) (es : List Event) : Overlay := es.foldl exec (.ofWorkspace w)

theorem run_concat (w : Workspace) (es : List Event) (e : Event) :
    run w (es ++ [e]) = exec (run w es) e := by
  rw [run, List.foldl_append]
  rfl

def taken (es : List Event) : Nat := es.countP Event.isSubscribe

/-- The subscription was taken for the file, and since then it was not given up nor all cleared. -/
def Live (es : List Event) (n : Nat) (file : String) : Prop :=
  ∃ before after, es = before ++ .subscribe file :: after ∧ taken before = n ∧
    .clear ∉ after ∧ .drop n ∉ after

variable {es : List Event} {e : Event} {n : Nat} {file : String}

theorem Live.lt_taken (h : Live es n file) : n < taken es := by
  obtain ⟨before, after, rfl, rfl, -, -⟩ := h
  simp only [taken, List.countP_append, List.countP_cons, Event.isSubscribe, if_true]
  omega

/-- What the last event adds, and what it leaves. -/
theorem live_concat : Live (es ++ [e]) n file ↔
    e = .subscribe file ∧ taken es = n ∨ Live es n file ∧ e ≠ .clear ∧ e ≠ .drop n := by
  constructor
  · rintro ⟨before, after, h, htaken, hclear, hdrop⟩
    rcases List.eq_nil_or_concat' after with rfl | ⟨later, x, rfl⟩
    · obtain ⟨rfl, hlast⟩ := List.append_inj' h rfl
      exact .inl ⟨List.singleton_inj.1 hlast, htaken⟩
    · rw [← List.cons_append, ← List.append_assoc] at h
      obtain ⟨rfl, hlast⟩ := List.append_inj' h rfl
      obtain rfl := List.singleton_inj.1 hlast
      simp only [List.mem_append, List.mem_singleton, not_or] at hclear hdrop
      exact .inr ⟨⟨before, later, rfl, htaken, hclear.1, hdrop.1⟩, Ne.symm hclear.2,
        Ne.symm hdrop.2⟩
  · rintro (⟨rfl, htaken⟩ | ⟨⟨before, after, rfl, htaken, hclear, hdrop⟩, hne, hne'⟩)
    · exact ⟨es, [], rfl, htaken, List.not_mem_nil, List.not_mem_nil⟩
    · refine ⟨before, after ++ [e], by simp, htaken, ?_, ?_⟩
      · simpa [hclear] using Ne.symm hne
      · simpa [hdrop] using Ne.symm hne'

theorem not_live_of_clear {before after : List Event} (hn : n < taken before) :
    ¬ Live (before ++ .clear :: after) n file := by
  rintro ⟨earlier, later, h, rfl, hclear, -⟩
  rcases List.append_eq_append_iff.1 h with ⟨u, rfl, -⟩ | ⟨u, -, hu⟩
  · simp only [taken, List.countP_append] at hn
    omega
  · cases u with
    | nil => exact Event.noConfusion (List.cons.inj hu).1
    | cons x u =>
      rw [(List.cons.inj hu).2] at hclear
      exact hclear (by simp)

structure Holds (es : List Event) (ov : Overlay) : Prop where
  next : ov.watchers.next = taken es
  mem : ∀ s, s ∈ ov.watchers.live ↔ Live es s.id s.file ∧ s.listener = .client
  sorted : (ov.watchers.live.map (·.id)).Pairwise (· < ·)

theorem holds_start (w : Workspace) : Holds [] (.ofWorkspace w) where
  next := rfl
  mem s := by
    refine iff_of_false List.not_mem_nil ?_
    rintro ⟨⟨before, after, h, -⟩, -⟩
    simp at h
  sorted := .nil

variable {ov : Overlay}

theorem Holds.notify_eq (h : Holds es ov) (file : String) (changes : List Change) (version : Int) :
    ov.notify file changes version =
      ⟨ov.watchers.count file, (ov.watchers.forFile file).map (⟨·.id, changes, version⟩), ov⟩ := by
  have hclient : ∀ s ∈ ov.watchers.forFile file, s.listener = .client := by
    intro s hs
    exact ((h.mem s).1 (Watchers.mem_forFile.1 hs).1).2
  simp only [Overlay.notify, Overlay.Round.deliverAll_clients hclient, Watchers.count]

/-- One event keeps the registry in step with what the events say. -/
theorem Holds.exec (h : Holds es ov) (e : Event) : Holds (es ++ [e]) (exec ov e) := by
  have htaken : taken (es ++ [e]) = taken es + if e.isSubscribe then 1 else 0 := by
    simp [taken, List.countP_append, List.countP_cons]
  cases e with
  | subscribe file =>
    refine ⟨?_, fun s => ?_, ?_⟩
    · rw [htaken, ← h.next]
      rfl
    · have hnew : s = ⟨taken es, file, .client⟩ ↔
          (file = s.file ∧ taken es = s.id) ∧ s.listener = .client := by
        obtain ⟨id, f, l⟩ := s
        simp only [Subscription.mk.injEq]
        tauto
      simp only [Subscribers.exec, Overlay.watch, Watchers.subscribe, List.mem_append,
        List.mem_singleton, h.mem, h.next, hnew, live_concat, Event.subscribe.injEq, ne_eq,
        reduceCtorEq, not_false_eq_true, and_true]
      tauto
    · simp only [Subscribers.exec, Overlay.watch, Watchers.subscribe, List.map_append,
        List.map_singleton]
      refine List.pairwise_append.2 ⟨h.sorted, List.pairwise_singleton _ _, ?_⟩
      intro i hi j hj
      obtain ⟨s, hs, rfl⟩ := List.mem_map.1 hi
      rw [List.mem_singleton.1 hj, h.next]
      exact ((h.mem s).1 hs).1.lt_taken
  | drop m =>
    refine ⟨htaken.symm ▸ h.next, fun s => ?_, h.sorted.sublist (List.filter_sublist.map _)⟩
    simp only [Subscribers.exec, Overlay.unwatch, Watchers.unsubscribe, List.mem_filter, h.mem,
      live_concat, bne_iff_ne, ne_eq, reduceCtorEq, false_and, false_or, not_false_eq_true,
      Event.drop.injEq, true_and, eq_comm (a := m)]
    tauto
  | clear =>
    refine ⟨htaken.symm ▸ h.next, fun s => ?_, .nil⟩
    simp [Subscribers.exec, Watchers.clear, live_concat]
  | notify file changes version =>
    have hsame : Subscribers.exec ov (.notify file changes version) = ov := by
      rw [Subscribers.exec, h.notify_eq]
    refine ⟨?_, fun s => ?_, ?_⟩
    · rw [hsame, htaken, h.next]
      rfl
    · rw [hsame, h.mem, live_concat]
      simp
    · rw [hsame]
      exact h.sorted

theorem holds_run (w : Workspace) (es : List Event) : Holds es (run w es) := by
  -- from the end, since what an event does depends on those before it
  induction es using List.reverseRecOn with
  | nil => exact holds_start w
  | append_singleton es e ih =>
    rw [run_concat]
    exact ih.exec e

def heard (ov : Overlay) (file : String) : List Nat := (ov.watchers.forFile file).map (·.id)

theorem Holds.mem_heard (h : Holds es ov) : n ∈ heard ov file ↔ Live es n file := by
  simp only [heard, List.mem_map, Watchers.mem_forFile, h.mem]
  constructor
  · rintro ⟨s, ⟨⟨hlive, -⟩, rfl⟩, rfl⟩
    exact hlive
  · intro hlive
    exact ⟨⟨n, file, .client⟩, ⟨⟨hlive, rfl⟩, rfl⟩, rfl⟩

theorem length_heard (ov : Overlay) (file : String) :
    (heard ov file).length = ov.watchers.count file := by
  rw [heard, List.length_map, Watchers.count]

theorem Holds.drop_eq (h : Holds es ov) (hn : ∀ file, ¬ Live es n file) :
    Subscribers.exec ov (.drop n) = ov := by
  have hkeep : ov.watchers.live.filter (·.id != n) = ov.watchers.live := by
    refine List.filter_eq_self.2 fun s hs => bne_iff_ne.2 ?_
    rintro rfl
    exact hn _ ((h.mem s).1 hs).1
  simp only [Subscribers.exec, Overlay.unwatch, Watchers.unsubscribe, hkeep]

/-- Subscriptions by file, and the file each was taken for, which is all that is known of it when it
is given up. -/
structure Kept where
  table : WatchTable Listener := {}
  files : List String := []

def Kept.exec (k : Kept) : Event → Kept
  | .subscribe file => ⟨k.table.subscribe file .client, k.files ++ [file]⟩
  | .drop n =>
    match k.files[n]? with
    | some file => { k with table := k.table.unsubscribe file n }
    | none => k
  | .clear => { k with table := k.table.clear }
  | .notify .. => k

def keep (es : List Event) : Kept := es.foldl Kept.exec {}

structure Kept.InStep (k : Kept) (ov : Overlay) : Prop where
  agrees : k.table.Agrees ov.watchers
  length : k.files.length = ov.watchers.next
  file : ∀ s ∈ ov.watchers.live, k.files[s.id]? = some s.file

variable {k : Kept}

theorem Kept.InStep.exec (h : k.InStep ov) (hov : Holds es ov) (e : Event) :
    (k.exec e).InStep (Subscribers.exec ov e) := by
  cases e with
  | subscribe file =>
    refine ⟨h.agrees.subscribe file .client, ?_, fun s hs => ?_⟩
    · rw [Kept.exec, List.length_append, h.length]
      rfl
    · rcases List.mem_append.1 hs with hs | hs
      · exact List.getElem?_append_left (List.getElem?_eq_some_iff.1 (h.file s hs)).1 ▸ h.file s hs
      · obtain rfl := List.mem_singleton.1 hs
        simp only [Kept.exec, ← h.length, List.getElem?_concat_length]
  | drop n =>
    -- a number that was given out leads to its file, and one that was not is nobody's
    have hold : ∀ s ∈ (ov.watchers.unsubscribe n).live, s ∈ ov.watchers.live := fun s hs =>
      (List.mem_filter.1 hs).1
    rw [Kept.exec]
    split
    next file hfile =>
      refine ⟨h.agrees.unsubscribe fun s hs hid => ?_, h.length, fun s hs => h.file s (hold s hs)⟩
      exact Option.some.inj ((h.file s hs).symm.trans (hid ▸ hfile))
    next hnone =>
      have hsame := hov.drop_eq (n := n) fun file hlive => by
        have := h.file ⟨n, file, .client⟩ ((hov.mem _).2 ⟨hlive, rfl⟩)
        simp [hnone] at this
      rw [hsame]
      exact h
  | clear => exact ⟨h.agrees.clear, h.length, fun s hs => absurd hs List.not_mem_nil⟩
  | notify file changes version =>
    rw [Subscribers.exec, hov.notify_eq]
    exact h

theorem inStep_run (w : Workspace) (es : List Event) : (keep es).InStep (run w es) := by
  induction es using List.reverseRecOn with
  | nil => exact ⟨WatchTable.agrees_empty, rfl, fun s hs => absurd hs List.not_mem_nil⟩
  | append_singleton es e ih =>
    rw [run_concat, keep, List.foldl_append]
    exact ih.exec (holds_run w es) e

/-- Of a change those are told who subscribed to the file since the last clearing and have not given
up: each once, in the order in which they came, and as many as are counted. Just the files with
somebody to tell are watched, and they are listed in order, each once. The same ones are found and
the same files are watched where subscriptions are kept by file. To give up a subscription from
before a clearing takes nobody away. -/
theorem told_iff_live (w : Workspace) (es : List Event) :
    (∀ file, ∃ told : List Nat, told.Pairwise (· < ·) ∧ (∀ n, n ∈ told ↔ Live es n file) ∧
      (∀ changes version, (run w es).notify file changes version =
        ⟨told.length, told.map (⟨·, changes, version⟩), run w es⟩) ∧
      (run w es).watchers.count file = told.length ∧
      ((run w es).watchers.isWatched file = true ↔ 0 < told.length) ∧
      (file ∈ (run w es).watchers.files ↔ 0 < told.length) ∧
      (keep es).table.get file = told.map (⟨·, .client⟩) ∧
      ((keep es).table.isWatched file = true ↔ 0 < told.length)) ∧
    (run w es).watchers.files.Pairwise (· < ·) ∧
    (keep es).table.files = (run w es).watchers.files ∧
    (∀ before after n, es = before ++ .clear :: after → n < taken before →
      exec (run w es) (.drop n) = run w es) := by
  have h := holds_run w es
  have hkeep := (inStep_run w es).agrees
  refine ⟨fun file => ⟨heard (run w es) file, ?_, fun n => h.mem_heard, fun changes version => ?_,
    (length_heard _ _).symm, ?_, ?_, ?_, ?_⟩, pairwise_sortedSet _, hkeep.files_eq, ?_⟩
  · exact h.sorted.sublist (List.filter_sublist.map _)
  · rw [h.notify_eq, length_heard, heard, List.map_map]
    rfl
  · rw [Watchers.isWatched_eq_true, length_heard]
  · rw [Watchers.mem_files_iff_count, length_heard]
  · rw [hkeep.get, heard, List.map_map]
    refine List.map_congr_left fun s hs => ?_
    rw [Function.comp_apply, ((h.mem s).1 (Watchers.mem_forFile.1 hs).1).2]
  · rw [hkeep.isWatched_eq, Watchers.isWatched_eq_true, length_heard]
  · rintro before after n hes hn
    exact h.drop_eq fun file => hes ▸ not_live_of_clear hn

/-- The first two subscriptions are cleared away. That they end later, one of them after the file is
asked for again, takes nothing from the third. -/
theorem told_iff_live_cleared :
    let w : Workspace := { options := ⟨fun _ => {}, .empty, none⟩ }
    let asked := [Event.subscribe "a", .subscribe "a", .clear]
    let later := [Event.subscribe "a", .subscribe "b", .drop 0, .drop 3]
    (run w (asked ++ later)).notify "a" [] 4 =
      ⟨1, [⟨2, [], 4⟩], run w (asked ++ later)⟩ ∧
    "b" ∉ (run w (asked ++ later)).watchers.files ∧
    exec (run w (asked ++ later)) (.drop 1) = run w (asked ++ later) := by
  intro w asked later
  obtain ⟨hfiles, -, -, hdrop⟩ := told_iff_live w (asked ++ later)
  refine ⟨?_, ?_, hdrop [.subscribe "a", .subscribe "a"] later 1 rfl (by decide)⟩
  · obtain ⟨told, -, -, hnotify, -, -, -, hget, -⟩ := hfiles "a"
    have htold : told.map (fun n => (n, Listener.client)) = [(2, .client)] := hget.symm.trans rfl
    obtain ⟨n, rfl, hn⟩ := List.map_eq_singleton_iff.1 htold
    rw [hnotify, List.length_singleton, List.map_singleton, (Prod.mk.inj hn).1]
  · obtain ⟨told, -, -, -, -, -, hmem, hget, -⟩ := hfiles "b"
    have htold : told.map (fun n => (n, Listener.client)) = [] := hget.symm.trans rfl
    rw [hmem, List.map_eq_nil_iff.1 htold]
    exact Nat.lt_irrefl 0

end BlockLens.Subscribers
