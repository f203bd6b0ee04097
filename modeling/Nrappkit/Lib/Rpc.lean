import Nrappkit.Lib.Xdr
/-!
# Remote procedure calls

A procedure is called by its number, with an argument and a result that travel
as bytes. A call that arrives, and whose answer does, is the call of the
procedure itself.

Requests and answers get lost. A caller that goes on trying has the procedure
run once for each request that arrives; where running it again is the same as
running it once, the caller cannot tell, and nor can the state.
-/

namespace Lib

variable {S A R T : Type}

/-! ## One call -/

structure Procedure (S : Type) where
  {Argument : Type}
  {Result : Type}
  argument : Xdr Argument
  result : Xdr Result
  run : S → Argument → Option (Result × S)

/-- How a server accepts a request. -/
inductive Accepted where
  | success (result : List UInt8)
  | proc_unavail
  | garbage_args
  deriving DecidableEq

/-- What a server with these procedures does with a request. -/
def dispatch (procedures : Nat → Option (Procedure S)) (s : S) (proc : Nat) (args : List UInt8) :
    Option (Accepted × S) :=
  match procedures proc with
  | none => some (.proc_unavail, s)
  | some p =>
    match p.argument.decode args with
    | none => some (.garbage_args, s)
    | some (arg, _) => (p.run s arg).map fun x => (.success (p.result.encode x.1), x.2)

/-- The call of a client: no result where the server does not send one that can
be read. -/
def clnt_call (server : S → Nat → List UInt8 → Option (Accepted × S)) (proc : Nat) (xargs : Xdr A) (arg : A) (xres : Xdr R)
    (s : S) : Option (Option R × S) :=
  (server s proc (xargs.encode arg)).map fun
    | (.success result, s) => ((xres.decode result).map Prod.fst, s)
    | (_, s) => (none, s)

section
variable {procedures : Nat → Option (Procedure S)} {proc : Nat} {xargs : Xdr A} {xres : Xdr R} {run : S → A → Option (R × S)}
  {s s' : S} {args : List UInt8}

/-- Arguments that cannot be read are refused. -/
theorem dispatch_garbage (hp : procedures proc = some ⟨xargs, xres, run⟩) (hdec : xargs.decode args = none) :
    dispatch procedures s proc args = some (.garbage_args, s) := by
  unfold dispatch
  rw [hp]
  dsimp only
  rw [hdec]

theorem dispatch_run (hp : procedures proc = some ⟨xargs, xres, run⟩) {arg : A} {rest : List UInt8}
    (hdec : xargs.decode args = some (arg, rest)) :
    dispatch procedures s proc args = (run s arg).map fun x => (.success (xres.encode x.1), x.2) := by
  unfold dispatch
  rw [hp]
  dsimp only
  rw [hdec]

/-- A client and a server that agree on the filters of a procedure. -/
theorem clnt_call_dispatch (hp : procedures proc = some ⟨xargs, xres, run⟩) {arg : A} (ha : xargs.Carries arg)
    (hr : ∀ r s', run s arg = some (r, s') → xres.Carries r) :
    clnt_call (dispatch procedures) proc xargs arg xres s = (run s arg).map fun x => (some x.1, x.2) := by
  have hdec : xargs.decode (xargs.encode arg) = some (arg, []) := by
    simpa using xargs.decode_encode arg [] ha
  rw [clnt_call, dispatch_run hp hdec]
  cases hrun : run s arg with
  | none => rfl
  | some x =>
    obtain ⟨r, s'⟩ := x
    have hres : xres.decode (xres.encode r) = some (r, []) := by
      simpa using xres.decode_encode r [] (hr r s' hrun)
    simp only [Option.map_some, hres]

end

/-! ## Trying again -/

/-- What becomes of an attempt. -/
inductive Fate where
  /-- There is no connection. -/
  | unreachable
  /-- The request does not arrive. -/
  | lost
  /-- The request arrives, and its answer does not. -/
  | unanswered
  | answered
  deriving DecidableEq

/-- How a call ends. -/
inductive Ending (R : Type) where
  | unreachable
  | gave_up
  | answered (r : R)
  deriving DecidableEq

/-- `n` attempts at most; `tries` were made before. -/
def attempts (call : Nat → S → Option (Option R × S)) (fate : Nat → Fate) : Nat → Nat → S → Option (Ending R × S)
  | _, 0, s => some (.gave_up, s)
  | tries, n + 1, s =>
    match fate tries with
    | .unreachable => some (.unreachable, s)
    | .lost => attempts call fate (tries + 1) n s
    | .unanswered => (call tries s).bind fun x => attempts call fate (tries + 1) n x.2
    | .answered => (call tries s).bind fun x =>
      match x.1 with
      | some r => some (.answered r, x.2)
      | none => attempts call fate (tries + 1) n x.2

/-- Doing it again, with an answer of its own, is doing it once with that
answer. -/
def Repeatable (spec : T → R → T → Prop) : Prop :=
  ∀ a r a' r' a'', spec a r a' → spec a' r' a'' → spec a r' a''

/-- Once, if there is an answer; once or not at all, if there is none. -/
def AsOnce (spec : T → R → T → Prop) (a : T) : Ending R → T → Prop
  | .answered r, a' => spec a r a'
  | _, a' => a' = a ∨ ∃ r, spec a r a'

variable {call : Nat → S → Option (Option R × S)} {fate : Nat → Fate} {spec : T → R → T → Prop} {rel : S → T → Prop}

/-- What was done before the attempts is part of what was done once. -/
theorem AsOnce.before (hrep : Repeatable spec) {a a' a'' : T} {r : R} {e : Ending R} (h : spec a r a') (ho : AsOnce spec a' e a'') :
    AsOnce spec a e a'' := by
  have hnone : (a'' = a' ∨ ∃ r', spec a' r' a'') → a'' = a ∨ ∃ r', spec a r' a'' := by
    rintro (rfl | ⟨r', hr'⟩)
    · exact .inr ⟨r, h⟩
    · exact .inr ⟨r', hrep _ _ _ _ _ h hr'⟩
  cases e with
  | answered r' => exact hrep _ _ _ _ _ h ho
  | unreachable => exact hnone ho
  | gave_up => exact hnone ho

/-- However many requests and answers get lost, a call with a repeatable
specification is done as if once. -/
theorem attempts_once (hrep : Repeatable spec)
    (hcall : ∀ tries s a x s', rel s a → call tries s = some (x, s') → ∃ r a', x = some r ∧ spec a r a' ∧ rel s' a') {n tries : Nat}
    {s s' : S} {a : T} {e : Ending R} (h : rel s a) (he : attempts call fate tries n s = some (e, s')) :
    ∃ a', AsOnce spec a e a' ∧ rel s' a' := by
  induction n generalizing tries s a with
  | zero =>
    cases he
    exact ⟨a, .inl rfl, h⟩
  | succ n ih =>
    unfold attempts at he
    cases hfate : fate tries with
    | unreachable =>
      rw [hfate] at he
      cases he
      exact ⟨a, .inl rfl, h⟩
    | lost =>
      rw [hfate] at he
      exact ih h he
    | unanswered =>
      rw [hfate] at he
      obtain ⟨⟨x, s₁⟩, hx, he⟩ := Option.bind_eq_some_iff.1 he
      obtain ⟨r, a₁, -, hspec, h₁⟩ := hcall _ _ _ _ _ h hx
      obtain ⟨a', ho, h'⟩ := ih h₁ he
      exact ⟨a', ho.before hrep hspec, h'⟩
    | answered =>
      rw [hfate] at he
      obtain ⟨⟨x, s₁⟩, hx, he⟩ := Option.bind_eq_some_iff.1 he
      obtain ⟨r, a₁, rfl, hspec, h₁⟩ := hcall _ _ _ _ _ h hx
      cases he
      exact ⟨a₁, hspec, h₁⟩

/-- The call ends if each of its attempts does, and with an answer if one of
them is answered before the connection is gone. -/
theorem attempts_ends (hcall : ∀ tries s a, rel s a → ∃ r a' s', call tries s = some (some r, s') ∧ rel s' a') {n tries : Nat}
    {s : S} {a : T} (h : rel s a) : ∃ e s', attempts call fate tries n s = some (e, s') ∧
      ((∃ k < n, fate (tries + k) = .answered ∧ ∀ j < k, fate (tries + j) ≠ .unreachable) → ∃ r, e = .answered r) := by
  induction n generalizing tries s a with
  | zero => exact ⟨_, _, rfl, fun ⟨k, hk, _⟩ => absurd hk (Nat.not_lt_zero k)⟩
  | succ n ih =>
    have later : fate tries ≠ .answered → (∃ k < n + 1, fate (tries + k) = .answered ∧ ∀ j < k, fate (tries + j) ≠ .unreachable) →
        ∃ k < n, fate (tries + 1 + k) = .answered ∧ ∀ j < k, fate (tries + 1 + j) ≠ .unreachable := by
      rintro hne ⟨k, hk, hans, hbefore⟩
      obtain ⟨k, rfl⟩ : ∃ k', k = k' + 1 := Nat.exists_eq_succ_of_ne_zero fun hk0 => hne (by simpa [hk0] using hans)
      refine ⟨k, Nat.lt_of_succ_lt_succ hk, by rwa [Nat.add_assoc, Nat.add_comm 1], fun j hj => ?_⟩
      have := hbefore (j + 1) (Nat.succ_lt_succ hj)
      rwa [Nat.add_assoc, Nat.add_comm 1]
    unfold attempts
    cases hfate : fate tries with
    | unreachable =>
      refine ⟨_, _, rfl, fun ⟨k, _, hans, hbefore⟩ => ?_⟩
      cases k with
      | zero =>
        rw [Nat.add_zero, hfate] at hans
        cases hans
      | succ k => exact absurd (by simpa using hfate) (hbefore 0 (Nat.succ_pos k))
    | lost =>
      obtain ⟨e, s', he, hans⟩ := ih h
      exact ⟨e, s', he, fun hk => hans (later (by simp [hfate]) hk)⟩
    | unanswered =>
      obtain ⟨r, a₁, s₁, hx, h₁⟩ := hcall tries s a h
      obtain ⟨e, s', he, hans⟩ := ih h₁
      exact ⟨e, s', by rw [hx]; exact he, fun hk => hans (later (by simp [hfate]) hk)⟩
    | answered =>
      obtain ⟨r, a₁, s₁, hx, h₁⟩ := hcall tries s a h
      exact ⟨.answered r, s₁, by rw [hx]; rfl, fun _ => ⟨r, rfl⟩⟩

end Lib
