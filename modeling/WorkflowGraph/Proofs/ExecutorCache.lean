import WorkflowGraph.ExecutorCache
import WorkflowGraph.Proofs.Dict
import WorkflowGraph.Proofs.Json.Writer

/-!
# Executors are shared by backend

An executor is kept under the text of its backend's configuration. No two backends are written
alike, and none is written like the key of no backend (`ExecutorCache.key_injective`), so what is
found is what has been created for that very backend. The factory of a session may remember what it
has been asked; its calls are written down (`ExecutorCache.watched`) together with the answers
(`ExecutorCache.session`). After every turn the cache holds what the calls so far have created
(`ExecutorCache.Keeps`), so a turn asks the factory for its backend only where no call has created
an executor for it (`ExecutorCache.Shares`).
-/

set_option autoImplicit false

namespace WorkflowGraph.ExecutorCache

/-! ## Keys -/

/-- **Different backends have different keys.** The key of no backend starts like no value. -/
theorem key_injective : Function.Injective key := by
  have hdefault (v : Value) : Json.compact v ≠ "default" := by
    intro h
    obtain ⟨c, rest, hv, hkind⟩ := Json.exists_start_compact v
    rw [h] at hv
    obtain rfl : 'd' = c := (List.cons.inj hv).1
    have hnumber : v.isNumber = true := by
      rw [Json.isNumber_iff_kind, ← hkind]
      rfl
    have hpart := Json.isNumberPart_of_mem_compact hnumber (c := 'd') (by rw [h]; decide)
    revert hpart
    unfold IsNumberPart IsNumeral
    decide
  intro a b h
  cases a with
  | none =>
    cases b with
    | none => rfl
    | some w => exact absurd h.symm (hdefault w)
  | some v =>
    cases b with
    | none => exact absurd h (hdefault v)
    | some w => exact congrArg some (Json.compact_injective h)

/-! ## Sessions -/

section Session

variable {σ ε : Type}

/-- A factory of executors, which may have a state of its own. -/
abbrev Factory (σ ε : Type) : Type := Option Value → StateM σ (Except String ε)

/-- A call of a factory: the backend that it was asked for, and what came of it. -/
structure Call (ε : Type) where
  backend : Option Value
  outcome : Except String ε

/-- A factory whose calls are written down. -/
def watched (create : Factory σ ε) : Factory (σ × List (Call ε)) ε := fun backend s =>
  let made := create backend s.1
  (made.1, made.2, s.2 ++ [⟨backend, made.1⟩])

/-- What has happened when a backend was resolved: the calls of the factory, the answer and how many
executors there are. -/
structure Turn (ε : Type) where
  backend : Option Value
  calls : List (Call ε)
  answer : Except String ε
  size : Nat

/-- One turn, the cache behind it and the state of the factory. -/
def turn (create : Factory σ ε) (c : ExecutorCache ε) (s : σ) (backend : Option Value) :
    Turn ε × ExecutorCache ε × σ :=
  let done := (c.resolveM (watched create) backend).run (s, [])
  (⟨backend, done.2.2, done.1.1, done.1.2.size⟩, done.1.2, done.2.1)

/-- Resolve backends one after another. -/
def session (create : Factory σ ε) : ExecutorCache ε → σ → List (Option Value) → List (Turn ε)
  | _, _, [] => []
  | c, s, backend :: rest =>
    let done := turn create c s backend
    done.1 :: session create done.2.1 done.2.2 rest

/-- The calls of some turns, in their order. -/
def callsOf (turns : List (Turn ε)) : List (Call ε) := turns.flatMap Turn.calls

/-- The backends that have been resolved in some turns. -/
def resolved (turns : List (Turn ε)) : Set (Option Value) :=
  {b | ∃ t ∈ turns, t.backend = b ∧ ∃ e, t.answer = .ok e}

/-- A turn behind others shares by backend: what a call has created for its backend is the answer,
without another call; where none has, the factory is asked for this backend and its answer is the
answer. There are as many executors as backends that have been resolved. -/
structure Shares (before : List (Turn ε)) (t : Turn ε) : Prop where
  own : ∀ e, t.answer = .ok e → ⟨t.backend, .ok e⟩ ∈ callsOf (before ++ [t])
  again : ∀ e, ⟨t.backend, .ok e⟩ ∈ callsOf before → t.calls = [] ∧ t.answer = .ok e
  first : (∀ e, ⟨t.backend, .ok e⟩ ∉ callsOf before) → t.calls = [⟨t.backend, t.answer⟩]
  size : t.size = (resolved (before ++ [t])).ncard

/-- No two calls have created executors for one backend. -/
def Once (calls : List (Call ε)) : Prop :=
  calls.Pairwise fun x y => ∀ e e', x.outcome = .ok e → y.outcome = .ok e' → x.backend ≠ y.backend

section Step

variable {create : Factory σ ε} {c : ExecutorCache ε} {s : σ} {backend : Option Value}

/-- What has been created is found, and the factory is left alone. -/
theorem turn_of_found {e : ε} (h : c.entries.get? (key backend) = some e) :
    turn create c s backend = (⟨backend, [], .ok e, c.size⟩, c, s) := by
  rw [turn, resolveM, h]
  rfl

theorem size_put (h : c.entries.get? (key backend) = none) (e : ε) :
    size ⟨c.entries.put (key backend) e⟩ = c.size + 1 := by
  have hname : key backend ∉ c.entries.names := by
    intro hmem
    obtain ⟨⟨_, value⟩, hp, rfl⟩ := List.mem_map.1 hmem
    obtain ⟨other, hother⟩ := Dict.exists_get?_of_mem hp
    rw [h] at hother
    cases hother
  exact (Dict.perm_put hname).length_eq

/-- The outcome of the call that a watched factory writes down. -/
theorem watched_eq {outcome : Except String ε} {s' : σ}
    (hcreate : create backend s = (outcome, s')) :
    watched create backend (s, []) = (outcome, s', [⟨backend, outcome⟩]) := by
  simp only [watched, hcreate, List.nil_append]

/-- What the factory creates is kept. -/
theorem turn_of_created {e : ε} {s' : σ} (h : c.entries.get? (key backend) = none)
    (hcreate : create backend s = (.ok e, s')) :
    turn create c s backend = (⟨backend, [⟨backend, .ok e⟩], .ok e, c.size + 1⟩,
      ⟨c.entries.put (key backend) e⟩, s') := by
  rw [turn, resolveM, h, ← size_put h e]
  simp only [StateT.run, bind, StateT.bind, watched_eq hcreate]
  rfl

/-- What the factory refuses leaves nothing behind. -/
theorem turn_of_refused {reason : String} {s' : σ} (h : c.entries.get? (key backend) = none)
    (hcreate : create backend s = (.error reason, s')) :
    turn create c s backend = (⟨backend, [⟨backend, .error reason⟩], .error reason, c.size⟩,
      c, s') := by
  rw [turn, resolveM, h]
  simp only [StateT.run, bind, StateT.bind, watched_eq hcreate]
  rfl

end Step

/-- The cache holds what the calls have created, and there has been one such call for each backend
that has been resolved. -/
structure Keeps (calls : List (Call ε)) (done : Set (Option Value)) (c : ExecutorCache ε) :
    Prop where
  entry : ∀ b e, c.entries.get? (key b) = some e ↔ ⟨b, .ok e⟩ ∈ calls
  made : ∀ b, b ∈ done ↔ ∃ e, ⟨b, .ok e⟩ ∈ calls
  finite : done.Finite
  count : c.size = done.ncard
  once : Once calls

theorem callsOf_append (turns : List (Turn ε)) (t : Turn ε) :
    callsOf (turns ++ [t]) = callsOf turns ++ t.calls := by
  rw [callsOf, List.flatMap_append, List.flatMap_singleton, callsOf]

theorem resolved_append_of_ok (turns : List (Turn ε)) {t : Turn ε} {e : ε} (h : t.answer = .ok e) :
    resolved (turns ++ [t]) = insert t.backend (resolved turns) := by
  ext b
  constructor
  · rintro ⟨u, hu, rfl, hanswer⟩
    rcases List.mem_append.1 hu with hu | hu
    · exact .inr ⟨u, hu, rfl, hanswer⟩
    · rw [List.mem_singleton.1 hu]
      exact .inl rfl
  · rintro (rfl | ⟨u, hu, rfl, hanswer⟩)
    · exact ⟨t, List.mem_append_right _ (List.mem_singleton_self _), rfl, e, h⟩
    · exact ⟨u, List.mem_append_left _ hu, rfl, hanswer⟩

theorem resolved_append_of_error (turns : List (Turn ε)) {t : Turn ε} {reason : String}
    (h : t.answer = .error reason) : resolved (turns ++ [t]) = resolved turns := by
  ext b
  constructor
  · rintro ⟨u, hu, rfl, e, hanswer⟩
    rcases List.mem_append.1 hu with hu | hu
    · exact ⟨u, hu, rfl, e, hanswer⟩
    · rw [List.mem_singleton.1 hu, h] at hanswer
      cases hanswer
  · rintro ⟨u, hu, rfl, hanswer⟩
    exact ⟨u, List.mem_append_left _ hu, rfl, hanswer⟩

theorem keeps_empty :
    Keeps (callsOf []) (resolved ([] : List (Turn ε))) (empty : ExecutorCache ε) where
  entry b e := by simp [empty, callsOf]
  made b := by simp [resolved, callsOf]
  finite := by simp [resolved]
  count := by simp [resolved, size, empty]
  once := List.Pairwise.nil

section Keeping

variable {calls : List (Call ε)} {done : Set (Option Value)} {c : ExecutorCache ε}
  {backend : Option Value}

/-- A call that has created nothing changes nothing. -/
theorem Keeps.refuse (h : Keeps calls done c) (reason : String) :
    Keeps (calls ++ [⟨backend, .error reason⟩]) done c where
  entry b e := by simp [h.entry]
  made b := by simp [h.made]
  finite := h.finite
  count := h.count
  once := List.pairwise_append.2 ⟨h.once, List.pairwise_singleton _ _, fun x _ y hy e e' _ hy' => by
    rw [List.mem_singleton.1 hy] at hy'
    cases hy'⟩

/-- What a call has created is kept, where nothing has been created for its backend. -/
theorem Keeps.create (h : Keeps calls done c) (hnone : c.entries.get? (key backend) = none) (e : ε) :
    Keeps (calls ++ [⟨backend, .ok e⟩]) (insert backend done)
      ⟨c.entries.put (key backend) e⟩ := by
  have hfresh (e' : ε) : ⟨backend, .ok e'⟩ ∉ calls := fun hmem => by
    rw [(h.entry _ _).2 hmem] at hnone
    cases hnone
  have hnew : backend ∉ done := fun hmem =>
    let ⟨e', he'⟩ := (h.made backend).1 hmem
    hfresh e' he'
  refine ⟨fun b e' => ?_, fun b => ?_, h.finite.insert _, ?_, ?_⟩
  · rw [Dict.get?_put, List.mem_append, List.mem_singleton]
    split
    · next hkey =>
      obtain rfl := key_injective hkey
      constructor
      · intro heq
        rw [Option.some.inj heq]
        exact .inr rfl
      · rintro (hmem | heq)
        · exact absurd hmem (hfresh e')
        · cases heq
          rfl
    · next hkey =>
      rw [h.entry, or_iff_left]
      intro heq
      cases heq
      exact hkey rfl
  · rw [Set.mem_insert_iff, h.made]
    constructor
    · rintro (rfl | ⟨e', he'⟩)
      · exact ⟨e, List.mem_append_right _ (List.mem_singleton_self _)⟩
      · exact ⟨e', List.mem_append_left _ he'⟩
    · rintro ⟨e', he'⟩
      rcases List.mem_append.1 he' with he' | he'
      · exact .inr ⟨e', he'⟩
      · cases List.mem_singleton.1 he'
        exact .inl rfl
  · rw [Set.ncard_insert_of_notMem hnew h.finite, ← h.count]
    exact size_put hnone e
  · refine List.pairwise_append.2 ⟨h.once, List.pairwise_singleton _ _, fun x hx y hy e₁ _ hx' _ => ?_⟩
    rw [List.mem_singleton.1 hy]
    rintro rfl
    obtain ⟨b, outcome⟩ := x
    cases hx'
    exact hfresh e₁ hx

end Keeping

/-- **One turn shares by backend, and the cache keeps what has been created.** -/
theorem Keeps.next {turns : List (Turn ε)} {c : ExecutorCache ε}
    (h : Keeps (callsOf turns) (resolved turns) c) (create : Factory σ ε) (s : σ)
    (backend : Option Value) :
    Shares turns (turn create c s backend).1 ∧
      Keeps (callsOf (turns ++ [(turn create c s backend).1]))
        (resolved (turns ++ [(turn create c s backend).1])) (turn create c s backend).2.1 := by
  cases hfound : c.entries.get? (key backend) with
  | some e =>
    have hmem : ⟨backend, .ok e⟩ ∈ callsOf turns := (h.entry backend e).1 hfound
    have hsame : resolved (turns ++ [⟨backend, [], .ok e, c.size⟩]) = resolved turns := by
      rw [resolved_append_of_ok turns rfl]
      exact Set.insert_eq_of_mem ((h.made backend).2 ⟨e, hmem⟩)
    rw [turn_of_found hfound]
    refine ⟨⟨fun e' he' => ?_, fun e' he' => ⟨rfl, ?_⟩, fun hnone => absurd hmem (hnone e), ?_⟩, ?_⟩
    · rw [callsOf_append, ← Except.ok.inj he']
      exact List.mem_append_left _ hmem
    · rw [Option.some.inj (((h.entry backend e').2 he').symm.trans hfound)]
    · rw [hsame]
      exact h.count
    · rw [callsOf_append, List.append_nil, hsame]
      exact h
  | none =>
    have hfresh (e : ε) : ⟨backend, .ok e⟩ ∉ callsOf turns := fun hmem => by
      rw [(h.entry _ _).2 hmem] at hfound
      cases hfound
    obtain ⟨outcome, s', hcreate⟩ : ∃ outcome s', create backend s = (outcome, s') := ⟨_, _, rfl⟩
    cases outcome with
    | ok e =>
      have hkeeps := h.create hfound e
      rw [turn_of_created hfound hcreate]
      refine ⟨⟨fun e' he' => ?_, fun e' he' => absurd he' (hfresh e'), fun _ => rfl, ?_⟩, ?_⟩
      · rw [callsOf_append, ← Except.ok.inj he']
        exact List.mem_append_right _ (List.mem_singleton_self _)
      · rw [resolved_append_of_ok turns rfl, ← hkeeps.count]
        exact (size_put hfound e).symm
      · rw [callsOf_append, resolved_append_of_ok turns rfl]
        exact hkeeps
    | error reason =>
      rw [turn_of_refused hfound hcreate]
      refine ⟨⟨fun e' he' => absurd he' (by simp), fun e' he' => absurd he' (hfresh e'),
        fun _ => rfl, ?_⟩, ?_⟩
      · rw [resolved_append_of_error turns rfl]
        exact h.count
      · rw [callsOf_append, resolved_append_of_error turns rfl]
        exact h.refuse reason

/-- Every turn of a session shares by backend. By induction on the backends that are left. -/
theorem Keeps.session {done : List (Turn ε)} {c : ExecutorCache ε}
    (h : Keeps (callsOf done) (resolved done) c) (create : Factory σ ε) (s : σ)
    (backends : List (Option Value)) :
    (∀ before t after, session create c s backends = before ++ t :: after →
      Shares (done ++ before) t) ∧
      Once (callsOf (done ++ ExecutorCache.session create c s backends)) := by
  induction backends generalizing done c s with
  | nil =>
    refine ⟨fun before t after heq => absurd heq (by simp [ExecutorCache.session]), ?_⟩
    rw [ExecutorCache.session, List.append_nil]
    exact h.once
  | cons backend rest ih =>
    obtain ⟨hshares, hkeeps⟩ := h.next create s backend
    obtain ⟨hrest, honce⟩ := ih hkeeps (turn create c s backend).2.2
    rw [List.append_assoc, List.singleton_append] at honce
    refine ⟨fun before t after heq => ?_, honce⟩
    cases before with
    | nil =>
      obtain ⟨rfl, -⟩ := List.cons.inj heq
      rw [List.append_nil]
      exact hshares
    | cons u before =>
      obtain ⟨rfl, hmore⟩ := List.cons.inj heq
      have hmore := hrest before t after hmore
      rwa [List.append_assoc, List.singleton_append] at hmore

/-- **The cache shares executors by backend.** Whatever the factory does and whatever is asked for,
each backend is answered in its turn, a turn is answered with what the factory has created for the
very backend of the turn, which is asked for only until it has been created, and no two executors
are created for one backend. -/
theorem shares_by_backend (create : Factory σ ε) (s : σ) (backends : List (Option Value)) :
    (session create empty s backends).map Turn.backend = backends ∧
      (∀ before t after, session create empty s backends = before ++ t :: after →
        Shares before t) ∧
      Once (callsOf (session create empty s backends)) := by
  have hbackends (c : ExecutorCache ε) : (session create c s backends).map Turn.backend = backends := by
    induction backends generalizing c s with
    | nil => rfl
    | cons backend rest ih => exact congrArg (backend :: ·) (ih _ _)
  obtain ⟨hshares, honce⟩ := keeps_empty.session create s backends
  exact ⟨hbackends empty, hshares, honce⟩

/-- A factory that numbers what it creates. -/
def numbering : Factory Nat Nat := fun _ n => (.ok n, n + 1)

/-- The two zeros are equal values, but they are written with different signs: each has an executor
of its own. -/
theorem zeros_apart :
    Value.same (.float 0.0) (.float (-0.0)) = true ∧
      (session numbering empty 0 [some (.float 0.0), some (.float (-0.0))]).map
        (fun t => (t.answer.toOption, t.size)) = [(some 0, 1), (some 1, 2)] := by
  decide +kernel

end Session

end WorkflowGraph.ExecutorCache
