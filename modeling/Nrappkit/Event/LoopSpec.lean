import Nrappkit.Event.TimerSpec
/-!
# What the event loop is for

`Loops` is the service behind `async_wait.c`, without records or queues of
them: what is registered, what is scheduled, and what is left of the batch that
is being run. A batch is made of what was scheduled and what `select` found
ready, and its callbacks are called one at a time. Every log such a service
produces is `Orderly`.
-/
open Lib

namespace Nrappkit.Event

/-- Where a callback of a batch comes from: a slot, or `NR_async_schedule`. -/
abbrev Origin : Type := Option (Nat × Nat)

/-- `NR_async_event_wait2` starts on a batch. -/
def Ev.IsPolled (e : Ev) : Prop := ∃ fd_read fd_write, e = .polled fd_read fd_write

/-- `select` reported the socket ready in the direction. -/
def ReadyIn (i j : Nat) (e : Ev) : Prop :=
  ∃ fd_read fd_write, e = .polled fd_read fd_write ∧ FD_ISSET i j fd_read fd_write = true

/-- What ends a registration: a cancel, another registration, or readiness. -/
def Ends (i j : Nat) (e : Ev) : Prop := e = .cancelled i j ∨ (∃ y, e = .registered y i j) ∨ ReadyIn i j e

/-- The callback is to run in the batch that is under way. What was scheduled
runs in the first batch after that; what was registered, in the batch that
found it ready while it was registered, unless it was cancelled. -/
def Due (l : List Ev) (x : Use) : Origin → Prop
  | none => ∃ k m, Logged l k (.scheduled x) ∧ k < m ∧ (∃ fd_read fd_write, Logged l m (.polled fd_read fd_write)) ∧
      Since (l.take m) k Ev.IsPolled ∧ Since l m (· = .returned)
  | some (i, j) => ∃ k m, Logged l k (.registered x i j) ∧ k < m ∧
      (∃ fd_read fd_write, Logged l m (.polled fd_read fd_write) ∧ FD_ISSET i j fd_read fd_write = true) ∧
      Since (l.take m) k (Ends i j) ∧ Since l k (· = .cancelled i j) ∧ Since l m (· = .returned)

def Unfired (l : List Ev) (x : Use) : Prop := ∀ j, ¬ Logged l j (.fired x)

/-- What a log of the event loop must look like. -/
structure Orderly (l : List Ev) : Prop where
  once : ∀ x i j, Logged l i (.fired x) → Logged l j (.fired x) → i = j
  /-- What fires was to run then. -/
  due : ∀ x j, Logged l j (.fired x) → ∃ o, Due (l.take j) x o
  /-- What was scheduled has fired when the next batch is done. -/
  all : ∀ k x m e n, Logged l k (.scheduled x) → x.cb ≠ 0 → k < m → Logged l m e → e.IsPolled → m < n →
    Logged l n .returned → ∃ j, j < n ∧ Logged l j (.fired x)
  inOrder : ∀ k k' x y j j', k < k' → Logged l k (.scheduled x) → Logged l k' (.scheduled y) →
    Logged l j (.fired x) → Logged l j' (.fired y) → j < j'

theorem unfired_snoc {l : List Ev} {e : Ev} {x : Use} : Unfired (l ++ [e]) x ↔ Unfired l x ∧ e ≠ .fired x := by
  constructor
  · intro h
    exact ⟨fun j hj => h j (hj.old e), fun heq => h l.length (logged_snoc.2 (.inr ⟨rfl, heq.symm⟩))⟩
  · rintro ⟨h, hne⟩ j hj
    rcases logged_snoc.1 hj with hj | ⟨-, heq⟩
    · exact h j hj
    · exact hne heq.symm

/-- What is due stays due until the batch is done or it is cancelled. -/
theorem due_snoc {l : List Ev} {e : Ev} {x : Use} {o : Origin} (h : Due l x o) (hr : e ≠ .returned)
    (hc : ∀ i j, o = some (i, j) → e ≠ .cancelled i j) : Due (l ++ [e]) x o := by
  cases o with
  | none =>
    obtain ⟨k, m, hk, hkm, ⟨fr, fw, hm⟩, hfirst, hret⟩ := h
    refine ⟨k, m, hk.old e, hkm, ⟨fr, fw, hm.old e⟩, ?_, since_snoc.2 ⟨hret, fun _ => hr⟩⟩
    rw [take_snoc (Nat.le_of_lt hm.lt)]
    exact hfirst
  | some ij =>
    obtain ⟨i, j⟩ := ij
    obtain ⟨k, m, hk, hkm, ⟨fr, fw, hm, hset⟩, hends, hcan, hret⟩ := h
    refine ⟨k, m, hk.old e, hkm, ⟨fr, fw, hm.old e, hset⟩, ?_, since_snoc.2 ⟨hcan, fun _ => hc i j rfl⟩,
      since_snoc.2 ⟨hret, fun _ => hr⟩⟩
    rw [take_snoc (Nat.le_of_lt hm.lt)]
    exact hends

/-- One more event keeps a log orderly: a callback that fires has not fired, is
due, and none that was scheduled later has fired; and when a batch is done, what
was scheduled before it has fired. -/
theorem Orderly.snoc {l : List Ev} (h : Orderly l) {e : Ev}
    (hs : ∀ x, e = .scheduled x → Unfired l x)
    (hf : ∀ x, e = .fired x → Unfired l x ∧ (∃ o, Due l x o) ∧
      ∀ k k' y, k < k' → Logged l k (.scheduled x) → Logged l k' (.scheduled y) → Unfired l y ∧ y ≠ x)
    (hr : e = .returned → ∀ k x m e', Logged l k (.scheduled x) → x.cb ≠ 0 → k < m → Logged l m e' → e'.IsPolled →
      ∃ j, Logged l j (.fired x)) : Orderly (l ++ [e]) where
  once x i j hi hj := by
    rcases logged_snoc.1 hi with hi' | ⟨rfl, hi'⟩ <;> rcases logged_snoc.1 hj with hj' | ⟨rfl, hj'⟩
    · exact h.once x i j hi' hj'
    · exact absurd hi' ((hf x hj'.symm).1 i)
    · exact absurd hj' ((hf x hi'.symm).1 j)
    · rfl
  due x j hj := by
    rcases logged_snoc.1 hj with hj' | ⟨rfl, hj'⟩
    · rw [take_snoc (Nat.le_of_lt hj'.lt)]
      exact h.due x j hj'
    · rw [take_snoc (Nat.le_refl _), List.take_length]
      exact (hf x hj'.symm).2.1
  all k x m e' n hk hcb hkm hm he' hmn hn := by
    rcases logged_snoc.1 hn with hn' | ⟨rfl, hn'⟩
    · have hnl := hn'.lt
      obtain ⟨j, hj, hfired⟩ := h.all k x m e' n (hk.of_lt (by omega)) hcb hkm (hm.of_lt (by omega)) he' hmn hn'
      exact ⟨j, hj, hfired.old e⟩
    · obtain ⟨j, hj⟩ := hr hn'.symm k x m e' (hk.of_lt (by omega)) hcb hkm (hm.of_lt hmn) he'
      exact ⟨j, hj.lt, hj.old e⟩
  inOrder k k' x y j j' hkk hk hk' hj hj' := by
    rcases logged_snoc.1 hk' with hk'' | ⟨rfl, he⟩
    · have hk := hk.of_lt (Nat.lt_trans hkk hk''.lt)
      rcases logged_snoc.1 hj with hj₁ | ⟨rfl, he⟩
      · rcases logged_snoc.1 hj' with hj₂ | ⟨rfl, -⟩
        · exact h.inOrder k k' x y j j' hkk hk hk'' hj₁ hj₂
        · exact hj₁.lt
      · rcases logged_snoc.1 hj' with hj₂ | ⟨-, he'⟩
        · exact absurd hj₂ (((hf x he.symm).2.2 k k' y hkk hk hk'').1 j')
        · rw [← he] at he'
          cases he'
          exact absurd rfl ((hf x he.symm).2.2 k k' x hkk hk hk'').2
    · rcases logged_snoc.1 hj' with hj₂ | ⟨-, he'⟩
      · exact absurd hj₂ (hs y he.symm j')
      · rw [← he] at he'
        cases he'

/-! ## The service -/

structure Loops where
  slots : Nat → Nat → Option Use
  /-- What was scheduled since the last batch began. -/
  queue : List Use
  /-- What is left of the batch that is being run. -/
  batch : List (Use × Origin)
  running : Bool
  serial : Nat
  log : List Ev

def Loops.setSlot (slots : Nat → Nat → Option Use) (i j : Nat) (v : Option Use) (i' j' : Nat) : Option Use :=
  if i' = i ∧ j' = j then v else slots i' j'

inductive Loops.Step : Loops → Loops → Prop
  | register {a : Loops} {x : Use} {i j serial : Nat} : a.serial ≤ x.serial → x.serial < serial →
      Step a { a with slots := setSlot a.slots i j (some x), serial, log := a.log ++ [.registered x i j] }
  | cancel {a : Loops} {i j : Nat} :
      Step a { a with
        slots := setSlot a.slots i j none
        batch := a.batch.filter fun b => b.2 ≠ some (i, j)
        log := a.log ++ [.cancelled i j] }
  | schedule {a : Loops} {x : Use} {serial : Nat} : a.serial ≤ x.serial → x.serial < serial →
      Step a { a with queue := a.queue ++ [x], serial, log := a.log ++ [.scheduled x] }
  | poll {a : Loops} {fd_read fd_write : List Nat} {found : List (Use × Origin)} : a.running = false →
      (∀ b, b ∈ found ↔ ∃ i j, b.2 = some (i, j) ∧ a.slots i j = some b.1 ∧ FD_ISSET i j fd_read fd_write = true ∧
        b.1.cb ≠ 0) → found.Nodup →
      Step a { a with
        slots := fun i j => if FD_ISSET i j fd_read fd_write = true then none else a.slots i j
        queue := []
        batch := (a.queue.filter fun x => x.cb ≠ 0).map (fun x => (x, none)) ++ found
        running := true
        log := a.log ++ [.polled fd_read fd_write] }
  | fire {a : Loops} {b : Use × Origin} {rest : List (Use × Origin)} : a.running = true → a.batch = b :: rest →
      Step a { a with batch := rest, log := a.log ++ [.fired b.1] }
  | finish {a : Loops} : a.running = true → a.batch = [] →
      Step a { a with running := false, log := a.log ++ [.returned] }
  /-- Something that is about timers. -/
  | other {a : Loops} {e : Ev} {serial : Nat} : e.isTimer = true → a.serial ≤ serial →
      Step a { a with serial, log := a.log ++ [e] }

/-- The event at `k` creates the use. -/
def Born (l : List Ev) (k : Nat) (x : Use) : Prop :=
  Logged l k (.scheduled x) ∨ ∃ i j, Logged l k (.registered x i j)

/-- What was scheduled and has not been called. -/
def Loops.waiting (a : Loops) : List Use := (a.batch.filter fun b => b.2 = none).map Prod.fst ++ a.queue

/-- Serials grow along the log. -/
structure BirthsOk (serial : Nat) (l : List Ev) : Prop where
  lt : ∀ k x, Born l k x → x.serial < serial
  mono : ∀ k k' x y, Born l k x → Born l k' y → k < k' → x.serial < y.serial

/-- The slots hold the registrations that have not ended. -/
structure SlotsOk (slots : Nat → Nat → Option Use) (l : List Ev) : Prop where
  held : ∀ i j x, slots i j = some x →
    (∃ k, Logged l k (.registered x i j) ∧ Since l k (Ends i j)) ∧ Unfired l x
  kept : ∀ k x i j, Logged l k (.registered x i j) → Since l k (Ends i j) → slots i j = some x

structure BatchOk (batch : List (Use × Origin)) (l : List Ev) : Prop where
  due : ∀ b ∈ batch, Due l b.1 b.2 ∧ Unfired l b.1
  distinct : (batch.map Prod.fst).Nodup

/-- What waits is what was scheduled and has not fired, in order. -/
structure WaitOk (waiting : List Use) (l : List Ev) : Prop where
  sorted : waiting.Pairwise fun x y => x.serial < y.serial
  left : ∀ k x, Logged l k (.scheduled x) → x.cb ≠ 0 → x ∈ waiting ∨ ∃ j, Logged l j (.fired x)
  later : ∀ x ∈ waiting, ∀ k y, Logged l k (.scheduled y) → x.serial < y.serial → Unfired l y

structure Loops.Inv (a : Loops) : Prop where
  orderly : Orderly a.log
  births : BirthsOk a.serial a.log
  nested : Bracketed Ev.IsPolled (· = .returned) a.running a.log
  idle : a.running = false → a.batch = []
  slots : SlotsOk a.slots a.log
  queue : ∀ x ∈ a.queue, (∃ k, Logged a.log k (.scheduled x) ∧ Since a.log k Ev.IsPolled) ∧ Unfired a.log x
  batch : BatchOk a.batch a.log
  waits : WaitOk a.waiting a.log

theorem born_snoc {l : List Ev} {e : Ev} {k : Nat} {x : Use} :
    Born (l ++ [e]) k x ↔ Born l k x ∨ k = l.length ∧ (e = .scheduled x ∨ ∃ i j, e = .registered x i j) := by
  unfold Born
  simp only [logged_snoc]
  constructor
  · rintro ((h | ⟨rfl, h⟩) | ⟨i, j, h | ⟨rfl, h⟩⟩)
    · exact .inl (.inl h)
    · exact .inr ⟨rfl, .inl h.symm⟩
    · exact .inl (.inr ⟨i, j, h⟩)
    · exact .inr ⟨rfl, .inr ⟨i, j, h.symm⟩⟩
  · rintro ((h | ⟨i, j, h⟩) | ⟨rfl, h | ⟨i, j, h⟩⟩)
    · exact .inl (.inl h)
    · exact .inr ⟨i, j, .inl h⟩
    · exact .inl (.inr ⟨rfl, h.symm⟩)
    · exact .inr ⟨i, j, .inr ⟨rfl, h.symm⟩⟩

/-! ## One more event -/

section
variable {l : List Ev} {e : Ev}

theorem BirthsOk.other {serial serial' : Nat} (h : BirthsOk serial l) (hs : ∀ x, e ≠ .scheduled x)
    (hr : ∀ x i j, e ≠ .registered x i j) (hle : serial ≤ serial') : BirthsOk serial' (l ++ [e]) := by
  have hold : ∀ {k x}, Born (l ++ [e]) k x → Born l k x := by
    intro k x hk
    rcases born_snoc.1 hk with hk | ⟨-, heq | ⟨i, j, heq⟩⟩
    · exact hk
    · exact absurd heq (hs x)
    · exact absurd heq (hr x i j)
  exact ⟨fun k x hk => Nat.lt_of_lt_of_le (h.lt k x (hold hk)) hle,
    fun k k' x y hk hk' hlt => h.mono k k' x y (hold hk) (hold hk') hlt⟩

theorem BirthsOk.born {serial serial' : Nat} (h : BirthsOk serial l) {x : Use}
    (he : e = .scheduled x ∨ ∃ i j, e = .registered x i j) (hx : serial ≤ x.serial) (hlt : x.serial < serial') :
    BirthsOk serial' (l ++ [e]) := by
  have hnew : ∀ {y}, (e = .scheduled y ∨ ∃ i j, e = .registered y i j) → y = x := by
    rintro y (rfl | ⟨i, j, rfl⟩) <;> rcases he with he | ⟨i', j', he⟩ <;> cases he <;> rfl
  refine ⟨fun k y hk => ?_, fun k k' y z hk hk' hkk => ?_⟩
  · rcases born_snoc.1 hk with hk | ⟨-, heq⟩
    · exact Nat.lt_of_lt_of_le (h.lt k y hk) (by omega)
    · rw [hnew heq]
      exact hlt
  · rcases born_snoc.1 hk with hk₁ | ⟨rfl, -⟩
    · rcases born_snoc.1 hk' with hk₂ | ⟨-, heq⟩
      · exact h.mono k k' y z hk₁ hk₂ hkk
      · rw [hnew heq]
        exact Nat.lt_of_lt_of_le (h.lt k y hk₁) hx
    · rcases born_snoc.1 hk' with hk₂ | ⟨rfl, -⟩
      · have : k' < l.length := by
          rcases hk₂ with hk₂ | ⟨i, j, hk₂⟩
          · exact hk₂.lt
          · exact hk₂.lt
        omega
      · omega

/-- A slot changes where the event ends its registration. -/
theorem SlotsOk.snoc {slots slots' : Nat → Nat → Option Use} (h : SlotsOk slots l)
    (hs : ∀ i j, (¬ Ends i j e ∧ slots' i j = slots i j) ∨
      Ends i j e ∧ ((∃ x, e = .registered x i j ∧ slots' i j = some x ∧ Unfired l x) ∨
        (∀ x, e ≠ .registered x i j) ∧ slots' i j = none))
    (hf : ∀ i j x, slots i j = some x → e ≠ .fired x) : SlotsOk slots' (l ++ [e]) := by
  refine ⟨fun i j x hx => ?_, fun k x i j hk hsince => ?_⟩
  · rcases hs i j with ⟨hne, heq⟩ | ⟨-, ⟨y, he, hy, hun⟩ | ⟨-, hnone⟩⟩
    · rw [heq] at hx
      obtain ⟨⟨k, hk, hsince⟩, hun⟩ := h.held i j x hx
      exact ⟨⟨k, hk.old e, since_snoc.2 ⟨hsince, fun _ => hne⟩⟩, unfired_snoc.2 ⟨hun, hf i j x hx⟩⟩
    · rw [hy] at hx
      cases hx
      subst he
      exact ⟨⟨l.length, logged_snoc.2 (.inr ⟨rfl, rfl⟩), since_length⟩, unfired_snoc.2 ⟨hun, by simp⟩⟩
    · rw [hnone] at hx
      cases hx
  · obtain ⟨hsince', hne⟩ := since_snoc.1 hsince
    rcases logged_snoc.1 hk with hk' | ⟨-, rfl⟩
    · rcases hs i j with ⟨-, heq⟩ | ⟨hend, -⟩
      · rw [heq]
        exact h.kept k x i j hk' hsince'
      · exact absurd hend (hne hk'.lt)
    · rcases hs i j with ⟨hne, -⟩ | ⟨-, ⟨y, he, hy, -⟩ | ⟨hno, -⟩⟩
      · exact absurd (.inr (.inl ⟨x, rfl⟩)) hne
      · cases he
        exact hy
      · exact absurd rfl (hno x)

/-- An event that is about no slot. -/
theorem SlotsOk.same {slots : Nat → Nat → Option Use} (h : SlotsOk slots l) (he : ∀ i j, ¬ Ends i j e)
    (hf : ∀ i j x, slots i j = some x → e ≠ .fired x) : SlotsOk slots (l ++ [e]) :=
  h.snoc (fun i j => .inl ⟨he i j, rfl⟩) hf

theorem BatchOk.snoc {batch batch' : List (Use × Origin)} (h : BatchOk batch l) (hsub : batch'.Sublist batch)
    (hr : e ≠ .returned) (hc : ∀ b ∈ batch', ∀ i j, b.2 = some (i, j) → e ≠ .cancelled i j)
    (hf : ∀ b ∈ batch', e ≠ .fired b.1) : BatchOk batch' (l ++ [e]) := by
  refine ⟨fun b hb => ?_, h.distinct.sublist (hsub.map _)⟩
  obtain ⟨hdue, hun⟩ := h.due b (hsub.subset hb)
  exact ⟨due_snoc hdue hr (hc b hb), unfired_snoc.2 ⟨hun, hf b hb⟩⟩

/-- Callbacks leave the waiting ones when they fire, or when they are null. -/
theorem WaitOk.snoc {waiting waiting' : List Use} (h : WaitOk waiting l) (hsub : waiting'.Sublist waiting)
    (hs : ∀ x, e ≠ .scheduled x) (hleft : ∀ x ∈ waiting, x ∈ waiting' ∨ x.cb = 0 ∨ e = .fired x)
    (hlater : ∀ x ∈ waiting', ∀ k y, Logged l k (.scheduled y) → x.serial < y.serial → e ≠ .fired y) :
    WaitOk waiting' (l ++ [e]) := by
  have hold : ∀ {k x}, Logged (l ++ [e]) k (.scheduled x) → Logged l k (.scheduled x) := by
    intro k x hk
    rcases logged_snoc.1 hk with hk | ⟨-, heq⟩
    · exact hk
    · exact absurd heq.symm (hs x)
  refine ⟨h.sorted.sublist hsub, fun k x hk hcb => ?_, fun x hx k y hk hlt => ?_⟩
  · rcases h.left k x (hold hk) hcb with hw | ⟨j, hj⟩
    · rcases hleft x hw with hw' | h0 | heq
      · exact .inl hw'
      · exact absurd h0 hcb
      · exact .inr ⟨l.length, logged_snoc.2 (.inr ⟨rfl, heq.symm⟩)⟩
    · exact .inr ⟨j, hj.old e⟩
  · exact unfired_snoc.2 ⟨h.later x (hsub.subset hx) k y (hold hk) hlt, hlater x hx k y (hold hk) hlt⟩

/-- An event that neither schedules nor fires a callback. -/
theorem WaitOk.same {waiting : List Use} (h : WaitOk waiting l) (hs : ∀ x, e ≠ .scheduled x)
    (hf : ∀ x, e ≠ .fired x) : WaitOk waiting (l ++ [e]) :=
  h.snoc (List.Sublist.refl _) hs (fun _ hx => .inl hx) fun _ _ _ y _ _ => hf y

end

namespace Loops.Inv
variable {a : Loops}

/-- A use is created once. -/
theorem born_inj (h : a.Inv) {k k' : Nat} {x y : Use} (hx : Born a.log k x) (hy : Born a.log k' y)
    (hs : x.serial = y.serial) : k = k' := by
  rcases Nat.lt_trichotomy k k' with hlt | heq | hlt
  · have := h.births.mono k k' x y hx hy hlt
    omega
  · exact heq
  · have := h.births.mono k' k y x hy hx hlt
    omega

/-- What fires was created. -/
theorem fired_born (h : a.Inv) {j : Nat} {x : Use} (hj : Logged a.log j (.fired x)) : ∃ k, Born a.log k x := by
  obtain ⟨o, ho⟩ := h.orderly.due x j hj
  cases o with
  | none =>
    obtain ⟨k, m, hk, -⟩ := ho
    exact ⟨k, .inl (logged_of_take hk)⟩
  | some ij =>
    obtain ⟨k, m, hk, -⟩ := ho
    exact ⟨k, .inr ⟨ij.1, ij.2, logged_of_take hk⟩⟩

/-- A serial that was not used belongs to nothing that has fired. -/
theorem unfired_fresh (h : a.Inv) {x : Use} (hx : a.serial ≤ x.serial) : Unfired a.log x := by
  intro j hj
  obtain ⟨k, hk⟩ := h.fired_born hj
  have := h.births.lt k x hk
  omega

theorem waiting_scheduled (h : a.Inv) {x : Use} (hx : x ∈ a.waiting) : ∃ k, Logged a.log k (.scheduled x) := by
  rcases List.mem_append.1 hx with hx | hx
  · obtain ⟨b, hb, rfl⟩ := List.mem_map.1 hx
    obtain ⟨hb, hnone⟩ := List.mem_filter.1 hb
    have hdue := (h.batch.due b hb).1
    rw [of_decide_eq_true hnone] at hdue
    obtain ⟨k, m, hk, -⟩ := hdue
    exact ⟨k, hk⟩
  · obtain ⟨⟨k, hk, -⟩, -⟩ := h.queue x hx
    exact ⟨k, hk⟩

/-- What was scheduled was not registered. -/
theorem not_both (h : a.Inv) {k k' i j : Nat} {x y : Use} (hk : Logged a.log k (.scheduled x))
    (hk' : Logged a.log k' (.registered y i j)) (hs : x.serial = y.serial) : False := by
  obtain rfl := h.born_inj (.inl hk) (.inr ⟨i, j, hk'⟩) hs
  cases hk.unique hk'

/-- A use in the batch and one in a slot are two. -/
theorem batch_ne_slot (h : a.Inv) {b : Use × Origin} (hb : b ∈ a.batch) {i j : Nat} {x : Use}
    (hx : a.slots i j = some x) : b.1 ≠ x := by
  rintro rfl
  obtain ⟨⟨k, hk, hsince⟩, -⟩ := h.slots.held i j _ hx
  obtain ⟨x, o⟩ := b
  have hdue := (h.batch.due _ hb).1
  cases o with
  | none =>
    obtain ⟨k', m, hk', -⟩ := hdue
    exact h.not_both hk' hk rfl
  | some ij =>
    obtain ⟨k', m, hk', hkm, ⟨fr, fw, hm, hset⟩, -⟩ := hdue
    obtain rfl := h.born_inj (.inr ⟨_, _, hk'⟩) (.inr ⟨i, j, hk⟩) rfl
    cases hk'.unique hk
    exact hsince m _ hkm hm (.inr (.inr ⟨fr, fw, rfl, hset⟩))

/-- A use in the batch and one in the queue are two. -/
theorem batch_ne_queue (h : a.Inv) {b : Use × Origin} (hb : b ∈ a.batch) {x : Use} (hx : x ∈ a.queue) : b.1 ≠ x := by
  rintro rfl
  obtain ⟨⟨k, hk, hsince⟩, -⟩ := h.queue _ hx
  obtain ⟨x, o⟩ := b
  have hdue := (h.batch.due _ hb).1
  cases o with
  | none =>
    obtain ⟨k', m, hk', hkm, ⟨fr, fw, hm⟩, -⟩ := hdue
    obtain rfl := h.born_inj (.inl hk') (.inl hk) rfl
    exact hsince m _ hkm hm ⟨fr, fw, rfl⟩
  | some ij =>
    obtain ⟨k', m, hk', -⟩ := hdue
    exact h.not_both hk hk' rfl

/-- An event that neither starts a batch nor fires a callback leaves the queue. -/
theorem queue_snoc (h : a.Inv) {e : Ev} (hp : ¬ e.IsPolled) (hf : ∀ x ∈ a.queue, e ≠ .fired x) :
    ∀ x ∈ a.queue, (∃ k, Logged (a.log ++ [e]) k (.scheduled x) ∧ Since (a.log ++ [e]) k Ev.IsPolled) ∧
      Unfired (a.log ++ [e]) x := by
  intro x hx
  obtain ⟨⟨k, hk, hsince⟩, hun⟩ := h.queue x hx
  exact ⟨⟨k, hk.old e, since_snoc.2 ⟨hsince, fun _ => hp⟩⟩, unfired_snoc.2 ⟨hun, hf x hx⟩⟩

theorem register_step (h : a.Inv) {x : Use} {i j serial : Nat} (hx : a.serial ≤ x.serial) (hs : x.serial < serial) :
    Loops.Inv { a with slots := setSlot a.slots i j (some x), serial, log := a.log ++ [.registered x i j] } where
  orderly := h.orderly.snoc (by simp) (by simp) (by simp)
  births := h.births.born (.inr ⟨i, j, rfl⟩) hx hs
  nested := h.nested.snoc (by simp [Ev.IsPolled]) .inl
  idle := h.idle
  slots := by
    refine h.slots.snoc (fun i' j' => ?_) (by simp)
    by_cases heq : i' = i ∧ j' = j
    · obtain ⟨rfl, rfl⟩ := heq
      exact .inr ⟨.inr (.inl ⟨x, rfl⟩), .inl ⟨x, rfl, if_pos ⟨rfl, rfl⟩, h.unfired_fresh hx⟩⟩
    · refine .inl ⟨?_, if_neg heq⟩
      rintro (he | ⟨y, he⟩ | ⟨fr, fw, he, -⟩)
      · cases he
      · cases he
        exact heq ⟨rfl, rfl⟩
      · cases he
  queue := h.queue_snoc (by simp [Ev.IsPolled]) (by simp)
  batch := h.batch.snoc (List.Sublist.refl _) (by simp) (by simp) (by simp)
  waits := h.waits.same (by simp) (by simp)

theorem cancel_step (h : a.Inv) {i j : Nat} :
    Loops.Inv { a with
      slots := setSlot a.slots i j none
      batch := a.batch.filter fun b => b.2 ≠ some (i, j)
      log := a.log ++ [.cancelled i j] } where
  orderly := h.orderly.snoc (by simp) (by simp) (by simp)
  births := h.births.other (by simp) (by simp) (Nat.le_refl _)
  nested := h.nested.snoc (by simp [Ev.IsPolled]) .inl
  idle hr := by
    show a.batch.filter _ = []
    rw [h.idle hr, List.filter_nil]
  slots := by
    refine h.slots.snoc (fun i' j' => ?_) (by simp)
    by_cases heq : i' = i ∧ j' = j
    · obtain ⟨rfl, rfl⟩ := heq
      exact .inr ⟨.inl rfl, .inr ⟨by simp, if_pos ⟨rfl, rfl⟩⟩⟩
    · refine .inl ⟨?_, if_neg heq⟩
      rintro (he | ⟨y, he⟩ | ⟨fr, fw, he, -⟩)
      · cases he
        exact heq ⟨rfl, rfl⟩
      · cases he
      · cases he
  queue := h.queue_snoc (by simp [Ev.IsPolled]) (by simp)
  batch := by
    refine h.batch.snoc List.filter_sublist (by simp) (fun b hb i' j' ho he => ?_) (by simp)
    cases he
    have := (List.mem_filter.1 hb).2
    exact of_decide_eq_true this ho
  waits := by
    have hsame : Loops.waiting { a with batch := a.batch.filter fun b => b.2 ≠ some (i, j) } = a.waiting := by
      unfold Loops.waiting
      dsimp only
      rw [List.filter_filter]
      congr 2
      apply List.filter_congr
      intro b _
      cases b.2 <;> simp
    exact hsame ▸ h.waits.same (by simp) (by simp)

theorem schedule_step (h : a.Inv) {x : Use} {serial : Nat} (hx : a.serial ≤ x.serial) (hs : x.serial < serial) :
    Loops.Inv { a with queue := a.queue ++ [x], serial, log := a.log ++ [.scheduled x] } where
  orderly := by
    refine h.orderly.snoc (fun y he => ?_) (by simp) (by simp)
    cases he
    exact h.unfired_fresh hx
  births := h.births.born (.inl rfl) hx hs
  nested := h.nested.snoc (by simp [Ev.IsPolled]) .inl
  idle := h.idle
  slots := h.slots.same (fun i j => by simp [Ends, ReadyIn]) (by simp)
  queue y hy := by
    rcases List.mem_append.1 hy with hy | hy
    · exact h.queue_snoc (by simp [Ev.IsPolled]) (by simp) y hy
    · rw [List.mem_singleton.1 hy]
      exact ⟨⟨a.log.length, logged_snoc.2 (.inr ⟨rfl, rfl⟩), since_length⟩,
        unfired_snoc.2 ⟨h.unfired_fresh hx, by simp⟩⟩
  batch := h.batch.snoc (List.Sublist.refl _) (by simp) (by simp) (by simp)
  waits := by
    have hlt : ∀ y ∈ a.waiting, y.serial < x.serial := by
      intro y hy
      obtain ⟨k, hk⟩ := h.waiting_scheduled hy
      exact Nat.lt_of_lt_of_le (h.births.lt k y (.inl hk)) hx
    have happ : Loops.waiting { a with queue := a.queue ++ [x], serial, log := a.log ++ [.scheduled x] } =
        a.waiting ++ [x] := (List.append_assoc ..).symm
    rw [happ]
    refine ⟨?_, fun k y hk hcb => ?_, fun z hz k y hk hzy => ?_⟩
    · refine List.pairwise_append.2 ⟨h.waits.sorted, List.pairwise_singleton .., fun y hy z hz => ?_⟩
      rw [List.mem_singleton.1 hz]
      exact hlt y hy
    · rcases logged_snoc.1 hk with hk' | ⟨-, heq⟩
      · rcases h.waits.left k y hk' hcb with hw | ⟨j, hj⟩
        · exact .inl (List.mem_append_left _ hw)
        · exact .inr ⟨j, hj.old _⟩
      · cases heq
        exact .inl (by simp)
    · rcases logged_snoc.1 hk with hk' | ⟨-, heq⟩
      · rcases List.mem_append.1 hz with hz | hz
        · exact unfired_snoc.2 ⟨h.waits.later z hz k y hk' hzy, by simp⟩
        · rw [List.mem_singleton.1 hz] at hzy
          have := h.births.lt k y (.inl hk')
          omega
      · cases heq
        exact unfired_snoc.2 ⟨h.unfired_fresh hx, by simp⟩

/-- What a new batch is made of. -/
theorem poll_batch (h : a.Inv) {fd_read fd_write : List Nat} {found : List (Use × Origin)}
    (hfound : ∀ b, b ∈ found ↔ ∃ i j, b.2 = some (i, j) ∧ a.slots i j = some b.1 ∧
      FD_ISSET i j fd_read fd_write = true ∧ b.1.cb ≠ 0) (hnd : found.Nodup) (hr : a.running = false) :
    BatchOk ((a.queue.filter fun x => x.cb ≠ 0).map (fun x => (x, none)) ++ found)
      (a.log ++ [.polled fd_read fd_write]) := by
  have hend := Nat.le_refl a.log.length
  have hpoll : Logged (a.log ++ [.polled fd_read fd_write]) a.log.length (.polled fd_read fd_write) :=
    logged_snoc.2 (.inr ⟨rfl, rfl⟩)
  have hborn : ∀ b ∈ found, ∃ k i j, b.2 = some (i, j) ∧ Logged a.log k (.registered b.1 i j) := by
    intro b hb
    obtain ⟨i, j, ho, hslot, -, -⟩ := (hfound b).1 hb
    obtain ⟨⟨k, hk, -⟩, -⟩ := h.slots.held i j b.1 hslot
    exact ⟨k, i, j, ho, hk⟩
  refine ⟨fun b hb => ?_, ?_⟩
  · rcases List.mem_append.1 hb with hb | hb
    · obtain ⟨x, hx, rfl⟩ := List.mem_map.1 hb
      obtain ⟨⟨k, hk, hsince⟩, hun⟩ := h.queue x (List.mem_filter.1 hx).1
      refine ⟨⟨k, a.log.length, hk.old _, hk.lt, ⟨fd_read, fd_write, hpoll⟩, ?_, since_length⟩,
        unfired_snoc.2 ⟨hun, by simp⟩⟩
      rw [take_snoc hend, List.take_length]
      exact hsince
    · obtain ⟨x, o⟩ := b
      obtain ⟨i, j, rfl, hslot, hset, -⟩ := (hfound _).1 hb
      obtain ⟨⟨k, hk, hsince⟩, hun⟩ := h.slots.held i j x hslot
      refine ⟨⟨k, a.log.length, hk.old _, hk.lt, ⟨fd_read, fd_write, hpoll, hset⟩, ?_, ?_, since_length⟩,
        unfired_snoc.2 ⟨hun, by simp⟩⟩
      · rw [take_snoc hend, List.take_length]
        exact hsince
      · exact since_snoc.2 ⟨hsince.mono fun e he => .inl he, by simp⟩
  · rw [List.map_append, List.map_map]
    refine List.nodup_append.2 ⟨?_, ?_, ?_⟩
    · -- what was scheduled has growing serials
      have hwait : a.waiting = a.queue := by simp [Loops.waiting, h.idle hr]
      have hsorted := h.waits.sorted
      rw [hwait] at hsorted
      have hq : (a.queue.filter fun x => x.cb ≠ 0).Nodup := by
        refine (hsorted.sublist List.filter_sublist).imp fun {x y} hlt => ?_
        rintro rfl
        exact Nat.lt_irrefl _ hlt
      have hid : (Prod.fst ∘ fun x : Use => (x, (none : Origin))) = id := rfl
      rw [hid, List.map_id]
      exact hq
    · refine hnd.map_on fun b hb b' hb' heq => ?_
      obtain ⟨k, i, j, ho, hk⟩ := hborn b hb
      obtain ⟨k', i', j', ho', hk'⟩ := hborn b' hb'
      obtain rfl := h.born_inj (.inr ⟨i, j, hk⟩) (.inr ⟨i', j', hk'⟩) (congrArg Use.serial heq)
      obtain ⟨-, rfl, rfl⟩ := Ev.registered.inj (hk.unique hk')
      exact Prod.ext heq (ho.trans ho'.symm)
    · intro x hx y hy hxy
      obtain ⟨z, hz, rfl⟩ := List.mem_map.1 hx
      obtain ⟨b, hb, rfl⟩ := List.mem_map.1 hy
      obtain ⟨⟨k, hk, -⟩, -⟩ := h.queue z (List.mem_filter.1 hz).1
      obtain ⟨k', i, j, -, hk'⟩ := hborn b hb
      exact h.not_both hk hk' (congrArg Use.serial hxy)

theorem poll_step (h : a.Inv) {fd_read fd_write : List Nat} {found : List (Use × Origin)} (hr : a.running = false)
    (hfound : ∀ b, b ∈ found ↔ ∃ i j, b.2 = some (i, j) ∧ a.slots i j = some b.1 ∧
      FD_ISSET i j fd_read fd_write = true ∧ b.1.cb ≠ 0) (hnd : found.Nodup) :
    Loops.Inv { a with
      slots := fun i j => if FD_ISSET i j fd_read fd_write = true then none else a.slots i j
      queue := []
      batch := (a.queue.filter fun x => x.cb ≠ 0).map (fun x => (x, none)) ++ found
      running := true
      log := a.log ++ [.polled fd_read fd_write] } where
  orderly := h.orderly.snoc (by simp) (by simp) (by simp)
  births := h.births.other (by simp) (by simp) (Nat.le_refl _)
  nested := by
    have hn := h.nested
    rw [hr] at hn
    exact hn.start _
  idle := by simp
  slots := by
    refine h.slots.snoc (fun i j => ?_) (by simp)
    by_cases hset : FD_ISSET i j fd_read fd_write = true
    · exact .inr ⟨.inr (.inr ⟨fd_read, fd_write, rfl, hset⟩), .inr ⟨by simp, if_pos hset⟩⟩
    · refine .inl ⟨?_, if_neg hset⟩
      rintro (he | ⟨y, he⟩ | ⟨fr, fw, he, hset'⟩)
      · cases he
      · cases he
      · cases he
        exact hset hset'
  queue := by simp
  batch := h.poll_batch hfound hnd hr
  waits := by
    have hwait : a.waiting = a.queue := by simp [Loops.waiting, h.idle hr]
    have hnone : found.filter (fun b => b.2 = none) = [] := by
      refine List.filter_eq_nil_iff.2 fun b hb hn => ?_
      obtain ⟨i, j, ho, -⟩ := (hfound b).1 hb
      rw [ho] at hn
      simp at hn
    have hnew : Loops.waiting { a with
        slots := fun i j => if FD_ISSET i j fd_read fd_write = true then none else a.slots i j
        queue := []
        batch := (a.queue.filter fun x => x.cb ≠ 0).map (fun x => (x, none)) ++ found
        running := true
        log := a.log ++ [.polled fd_read fd_write] } = a.queue.filter fun x => x.cb ≠ 0 := by
      simp [Loops.waiting, hnone, List.filter_map, Function.comp_def]
    rw [hnew]
    refine h.waits.snoc ?_ (by simp) (fun x hx => ?_) (by simp)
    · rw [hwait]
      exact List.filter_sublist
    · rw [hwait] at hx
      by_cases hcb : x.cb = 0
      · exact .inr (.inl hcb)
      · exact .inl (List.mem_filter.2 ⟨hx, by simpa using hcb⟩)

theorem fire_step (h : a.Inv) {b : Use × Origin} {rest : List (Use × Origin)} (hr : a.running = true)
    (hb : a.batch = b :: rest) : Loops.Inv { a with batch := rest, log := a.log ++ [.fired b.1] } := by
  have hmem : b ∈ a.batch := by simp [hb]
  obtain ⟨hdue, hun⟩ := h.batch.due b hmem
  -- only what was scheduled waits
  have hnone : ∀ k, Logged a.log k (.scheduled b.1) → b.2 = none := by
    intro k hk
    cases ho : b.2 with
    | none => rfl
    | some ij =>
      rw [ho] at hdue
      obtain ⟨k', m, hk', -⟩ := hdue
      exact (h.not_both hk hk' rfl).elim
  have hwait : a.waiting = (if b.2 = none then [b.1] else []) ++ Loops.waiting { a with batch := rest } := by
    unfold Loops.waiting
    rw [hb, List.filter_cons]
    by_cases ho : b.2 = none <;> simp [ho]
  have hdistinct := h.batch.distinct
  rw [hb, List.map_cons] at hdistinct
  constructor
  · refine h.orderly.snoc (by simp) (fun x he => ?_) (by simp)
    cases he
    refine ⟨hun, ⟨b.2, hdue⟩, fun k k' y hkk hk hk' => ?_⟩
    have hlt := h.births.mono k k' b.1 y (.inl hk) (.inl hk') hkk
    refine ⟨h.waits.later b.1 ?_ k' y hk' hlt, ?_⟩
    · rw [hwait, if_pos (hnone k hk)]
      simp
    · rintro rfl
      exact Nat.lt_irrefl _ hlt
  · exact h.births.other (by simp) (by simp) (Nat.le_refl _)
  · exact h.nested.snoc (by simp [Ev.IsPolled]) .inl
  · intro hu
    dsimp only at hu
    rw [hr] at hu
    cases hu
  · refine h.slots.same (fun i j => by simp [Ends, ReadyIn]) fun i j x hx he => ?_
    cases he
    exact h.batch_ne_slot hmem hx rfl
  · refine h.queue_snoc (by simp [Ev.IsPolled]) fun x hx he => ?_
    cases he
    exact h.batch_ne_queue hmem hx rfl
  · refine h.batch.snoc (by rw [hb]; exact List.sublist_cons_self ..) (by simp) (by simp) fun b' hb' he => ?_
    have heq : b.1 = b'.1 := Ev.fired.inj he
    exact (List.nodup_cons.1 hdistinct).1 (List.mem_map.2 ⟨b', hb', heq.symm⟩)
  · refine h.waits.snoc ?_ (by simp) (fun x hx => ?_) (fun x hx k y hk hlt he => ?_)
    · rw [hwait]
      exact List.sublist_append_right ..
    · rw [hwait] at hx
      rcases List.mem_append.1 hx with hx | hx
      · split at hx
        · rw [List.mem_singleton.1 hx]
          exact .inr (.inr rfl)
        · cases hx
      · exact .inl hx
    · cases he
      have hsorted := h.waits.sorted
      rw [hwait, if_pos (hnone k hk), List.singleton_append, List.pairwise_cons] at hsorted
      have := hsorted.1 x hx
      omega

theorem finish_step (h : a.Inv) (hb : a.batch = []) :
    Loops.Inv { a with running := false, log := a.log ++ [.returned] } where
  orderly := by
    refine h.orderly.snoc (by simp) (by simp) fun _ k x m e hk hcb hkm hm he => ?_
    rcases h.waits.left k x hk hcb with hw | hfired
    · -- what still waits was scheduled after the batch began
      have hq : x ∈ a.queue := by simpa [Loops.waiting, hb] using hw
      obtain ⟨⟨k', hk', hsince⟩, -⟩ := h.queue x hq
      obtain rfl := h.born_inj (.inl hk) (.inl hk') rfl
      exact absurd he (hsince m e hkm hm)
    · exact hfired
  births := h.births.other (by simp) (by simp) (Nat.le_refl _)
  nested := h.nested.snoc (by simp [Ev.IsPolled]) fun _ => .inr rfl
  idle := fun _ => hb
  slots := h.slots.same (fun i j => by simp [Ends, ReadyIn]) (by simp)
  queue := h.queue_snoc (by simp [Ev.IsPolled]) (by simp)
  batch := by
    show BatchOk a.batch _
    rw [hb]
    exact ⟨by simp, List.nodup_nil⟩
  waits := h.waits.same (by simp) (by simp)

theorem other_step (h : a.Inv) {e : Ev} {serial : Nat} (he : e.isTimer = true) (hs : a.serial ≤ serial) :
    Loops.Inv { a with serial, log := a.log ++ [e] } := by
  have hreg : ∀ x i j, e ≠ .registered x i j := by
    rintro x i j rfl
    cases he
  have hcan : ∀ i j, e ≠ .cancelled i j := by
    rintro i j rfl
    cases he
  have hsch : ∀ x, e ≠ .scheduled x := by
    rintro x rfl
    cases he
  have hpol : ¬ e.IsPolled := by
    rintro ⟨fr, fw, rfl⟩
    cases he
  have hfir : ∀ x, e ≠ .fired x := by
    rintro x rfl
    cases he
  have hret : e ≠ .returned := by
    rintro rfl
    cases he
  refine ⟨h.orderly.snoc (fun x hx => absurd hx (hsch x)) (fun x hx => absurd hx (hfir x)) fun hx => absurd hx hret,
    h.births.other hsch hreg hs, h.nested.snoc hpol .inl, h.idle, h.slots.same (fun i j => ?_) fun _ _ x _ => hfir x,
    h.queue_snoc hpol fun x _ => hfir x,
    h.batch.snoc (List.Sublist.refl _) hret (fun _ _ i j _ => hcan i j) fun b _ => hfir b.1, h.waits.same hsch hfir⟩
  rintro (hx | ⟨y, hx⟩ | ⟨fr, fw, hx, -⟩)
  · exact hcan i j hx
  · exact hreg y i j hx
  · exact hpol ⟨fr, fw, hx⟩

/-- Every step of the service keeps its invariant. -/
theorem step {a' : Loops} (h : a.Inv) (hs : a.Step a') : a'.Inv := by
  cases hs with
  | register hx hs => exact h.register_step hx hs
  | cancel => exact h.cancel_step
  | schedule hx hs => exact h.schedule_step hx hs
  | poll hr hfound hnd => exact h.poll_step hr hfound hnd
  | fire hr hb => exact h.fire_step hr hb
  | finish _ hb => exact h.finish_step hb
  | other he hs => exact h.other_step he hs

end Loops.Inv

end Nrappkit.Event
