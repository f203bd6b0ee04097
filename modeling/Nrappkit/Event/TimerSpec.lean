import Nrappkit.Event.Async
/-!
# What the timers are for

`Timers` is the service behind `async_timer.c`, without records, slots or
walks: the live timers by handle, the offset and the log. An update fires the
timers that are due one at a time and can only end when none is left. Every
log such a service produces is `Exact`.
-/
open Lib

namespace Nrappkit.Event

/-- The event at `i` fires or cancels the timer. -/
def Resolves (log : List Ev) (i : Nat) (x : Use) : Prop :=
  Logged log i (.timerFired x) ∨ Logged log i (.timerCancelled x)

/-- What a log of timer calls must look like. -/
structure Exact (log : List Ev) : Prop where
  /-- What fires or is cancelled was set before. -/
  known : ∀ x j, Resolves log j x → ∃ k D h, k < j ∧ Logged log k (.timerSet x D h)
  /-- A timer fires or is cancelled at most once, and not both. -/
  once : ∀ x i j, Resolves log i x → Resolves log j x → i = j
  /-- A timer fires in an update that began after it was set, the first one to
  reach the offset it is due at. -/
  first : ∀ k x D h j, Logged log k (.timerSet x D h) → Logged log j (.timerFired x) →
    ∃ m c, k < m ∧ m < j ∧ Logged log m (.updating c) ∧ D ≤ c ∧
      (∀ n, m < n → n < j → ¬ Logged log n .updated) ∧
      ∀ n c', k < n → n < m → Logged log n (.updating c') → c' < D
  /-- When an update that reached the timer returns, the timer has fired or was
  cancelled. -/
  due : ∀ k x D h m c n, Logged log k (.timerSet x D h) → k < m → Logged log m (.updating c) → D ≤ c →
    m < n → Logged log n .updated → ∃ j, j < n ∧ Resolves log j x

theorem resolves_snoc {l : List Ev} {e : Ev} {i : Nat} {x : Use} :
    Resolves (l ++ [e]) i x ↔ Resolves l i x ∨ i = l.length ∧ (e = .timerFired x ∨ e = .timerCancelled x) := by
  simp only [Resolves, logged_snoc, eq_comm (b := e)]
  tauto

theorem Resolves.lt {l : List Ev} {i : Nat} {x : Use} (h : Resolves l i x) : i < l.length := by
  rcases h with h | h
  · exact h.lt
  · exact h.lt

theorem resolved_snoc {l : List Ev} {x : Use} (h : ∃ j, Resolves l j x) (e : Ev) : ∃ j, Resolves (l ++ [e]) j x := by
  obtain ⟨j, hj⟩ := h
  exact ⟨j, resolves_snoc.2 (.inl hj)⟩

theorem unresolved_snoc {l : List Ev} {x : Use} (h : ∀ j, ¬ Resolves l j x) {e : Ev} (hf : e ≠ .timerFired x)
    (hc : e ≠ .timerCancelled x) (j : Nat) : ¬ Resolves (l ++ [e]) j x := by
  intro hj
  rcases resolves_snoc.1 hj with hj' | ⟨-, he | he⟩
  · exact h j hj'
  · exact hf he
  · exact hc he

/-- Since `k` an update has reached the offset `D`, the first one to do so, and
has not returned. -/
def Reached (l : List Ev) (k D : Nat) : Prop :=
  ∃ m c, k < m ∧ Logged l m (.updating c) ∧ D ≤ c ∧ (∀ n, m < n → ¬ Logged l n .updated) ∧
    ∀ n c', k < n → n < m → Logged l n (.updating c') → c' < D

/-- One more event keeps a log exact: a timer that is set is new, one that
fires or is cancelled was neither before, one that fires is due in the update
that is under way, and an update that returns leaves no timer it reached. -/
theorem Exact.snoc {l : List Ev} (h : Exact l) {e : Ev}
    (hset : ∀ x D hd, e = .timerSet x D hd → ∀ j, ¬ Resolves l j x)
    (hres : ∀ x, e = .timerFired x ∨ e = .timerCancelled x → ∀ j, ¬ Resolves l j x)
    (hknown : ∀ x, e = .timerFired x ∨ e = .timerCancelled x → ∃ k D hd, Logged l k (.timerSet x D hd))
    (hfire : ∀ x k D hd, e = .timerFired x → Logged l k (.timerSet x D hd) → Reached l k D)
    (hend : e = .updated → ∀ k x D hd m c, Logged l k (.timerSet x D hd) → k < m → Logged l m (.updating c) →
      D ≤ c → ∃ j, Resolves l j x) : Exact (l ++ [e]) where
  known x j hj := by
    rcases resolves_snoc.1 hj with hj' | ⟨rfl, he⟩
    · obtain ⟨k, D, hd, hk, hset⟩ := h.known x j hj'
      exact ⟨k, D, hd, hk, hset.old e⟩
    · obtain ⟨k, D, hd, hk⟩ := hknown x he
      exact ⟨k, D, hd, hk.lt, hk.old e⟩
  once x i j hi hj := by
    rcases resolves_snoc.1 hi with hi' | ⟨rfl, hi'⟩ <;> rcases resolves_snoc.1 hj with hj' | ⟨rfl, hj'⟩
    · exact h.once x i j hi' hj'
    · exact absurd hi' (hres x hj' i)
    · exact absurd hj' (hres x hi' j)
    · rfl
  first k x D hd j hk hj := by
    rcases logged_snoc.1 hk with hk' | ⟨-, hk'⟩
    · rcases logged_snoc.1 hj with hj' | ⟨rfl, hj'⟩
      · obtain ⟨m, c, hkm, hmj, hm, hDc, hno, hearly⟩ := h.first k x D hd j hk' hj'
        have hjl := hj'.lt
        refine ⟨m, c, hkm, hmj, hm.old e, hDc, fun n hmn hnj hn => ?_, fun n c' hkn hnm hn => ?_⟩
        · exact hno n hmn hnj (hn.of_lt (by omega))
        · exact hearly n c' hkn hnm (hn.of_lt (by omega))
      · obtain ⟨m, c, hkm, hm, hDc, hno, hearly⟩ := hfire x k D hd hj'.symm hk'
        have hml := hm.lt
        refine ⟨m, c, hkm, hml, hm.old e, hDc, fun n hmn hnl hn => ?_, fun n c' hkn hnm hn => ?_⟩
        · exact hno n hmn (hn.of_lt hnl)
        · exact hearly n c' hkn hnm (hn.of_lt (by omega))
    · rcases logged_snoc.1 hj with hj' | ⟨rfl, hj'⟩
      · exact absurd (.inl hj') (hset x D hd hk'.symm j)
      · rw [← hk'] at hj'
        cases hj'
  due k x D hd m c n hk hkm hm hDc hmn hn := by
    rcases logged_snoc.1 hn with hn' | ⟨rfl, hn'⟩
    · have hnl := hn'.lt
      obtain ⟨j, hj, hres⟩ := h.due k x D hd m c n (hk.of_lt (by omega)) hkm (hm.of_lt (by omega)) hDc hmn hn'
      exact ⟨j, hj, resolves_snoc.2 (.inl hres)⟩
    · obtain ⟨j, hj⟩ := hend hn'.symm k x D hd m c (hk.of_lt (by omega)) hkm (hm.of_lt hmn) hDc
      exact ⟨j, hj.lt, resolves_snoc.2 (.inl hj)⟩

/-- An update starts only after the one before it has returned; with none under
way, all have. -/
abbrev Nested (updating : Bool) (l : List Ev) : Prop :=
  Bracketed (fun e => ∃ c, e = .updating c) (· = .updated) updating l

/-! ## The service -/

/-- The live timers by handle, the offset, whether an update is under way, a
bound on the serials used so far, and the log. -/
structure Timers where
  live : Ptr → Option (Use × Nat)
  now : Nat
  updating : Bool
  serial : Nat
  log : List Ev

/-- The events of the timers. -/
def Ev.isTimer : Ev → Bool
  | timerSet .. | timerCancelled .. | updating .. | timerFired .. | updated => true
  | _ => false

inductive Timers.Step : Timers → Timers → Prop
  | set {a : Timers} {h : Ptr} {x : Use} {D serial : Nat} : a.live h = none → a.serial ≤ x.serial → x.serial < serial →
      a.now < D → Step a { a with
        live := Function.update a.live h (some (x, D)), serial, log := a.log ++ [.timerSet x D h] }
  | cancel {a : Timers} {h : Ptr} {x : Use} {D : Nat} : a.live h = some (x, D) →
      Step a { a with live := Function.update a.live h none, log := a.log ++ [.timerCancelled x] }
  | start {a : Timers} {c : Nat} : a.updating = false → a.now ≤ c →
      Step a { a with now := c, updating := true, log := a.log ++ [.updating c] }
  /-- An update that computes an offset of the past. -/
  | late {a : Timers} {c : Nat} : a.updating = false → c < a.now →
      Step a { a with log := a.log ++ [.updating c, .updated] }
  | fire {a : Timers} {h : Ptr} {x : Use} {D : Nat} : a.updating = true → a.live h = some (x, D) → D ≤ a.now →
      Step a { a with live := Function.update a.live h none, log := a.log ++ [.timerFired x] }
  | finish {a : Timers} : a.updating = true → (∀ h x D, a.live h = some (x, D) → a.now < D) →
      Step a { a with updating := false, log := a.log ++ [.updated] }
  /-- Something that is not about timers. -/
  | other {a : Timers} {e : Ev} {serial : Nat} : e.isTimer = false → a.serial ≤ serial →
      Step a { a with serial, log := a.log ++ [e] }

/-- What the service keeps. -/
structure Timers.Inv (a : Timers) : Prop where
  exact : Exact a.log
  serial : ∀ k x D h, Logged a.log k (.timerSet x D h) → x.serial < a.serial
  unique : ∀ k k' x x' D D' h h', Logged a.log k (.timerSet x D h) → Logged a.log k' (.timerSet x' D' h') →
    x.serial = x'.serial → k = k'
  past : ∀ m c, Logged a.log m (.updating c) → c ≤ a.now
  idle : a.updating = false → ∀ h x D, a.live h = some (x, D) → a.now < D
  /-- A live timer was set and is unresolved; if it is due, an update has
  reached it and has not returned. -/
  live : ∀ h x D, a.live h = some (x, D) → ∃ k, Logged a.log k (.timerSet x D h) ∧ (∀ j, ¬ Resolves a.log j x) ∧
    (D ≤ a.now → Reached a.log k D)
  /-- No timer is lost. -/
  set : ∀ k x D h, Logged a.log k (.timerSet x D h) → a.live h = some (x, D) ∨ ∃ j, Resolves a.log j x
  nested : Nested a.updating a.log

namespace Timers.Inv
variable {a : Timers}

/-- Two timers with one serial are one. -/
theorem set_inj (h : a.Inv) {k k' : Nat} {x : Use} {D D' : Nat} {hd hd' : Ptr}
    (hk : Logged a.log k (.timerSet x D hd)) (hk' : Logged a.log k' (.timerSet x D' hd')) :
    k = k' ∧ D = D' ∧ hd = hd' := by
  obtain rfl := h.unique k k' x x D D' hd hd' hk hk' rfl
  have := hk.unique hk'
  cases this
  exact ⟨rfl, rfl, rfl⟩

/-- A serial that was not used belongs to no timer of the log. -/
theorem fresh (h : a.Inv) {x : Use} (hx : a.serial ≤ x.serial) (j : Nat) : ¬ Resolves a.log j x := by
  intro hr
  obtain ⟨k, D, hd, -, hk⟩ := h.exact.known x j hr
  exact absurd (h.serial k x D hd hk) (Nat.not_lt.2 hx)

/-- `Reached` outlives every event but the return of the update. -/
theorem reached_snoc {l : List Ev} {k D : Nat} (h : Reached l k D) {e : Ev} (he : e ≠ .updated) :
    Reached (l ++ [e]) k D := by
  obtain ⟨m, c, hkm, hm, hDc, hno, hearly⟩ := h
  have hml := hm.lt
  refine ⟨m, c, hkm, hm.old e, hDc, fun n hmn hn => ?_, fun n c' hkn hnm hn => ?_⟩
  · rcases logged_snoc.1 hn with hn' | ⟨-, hn'⟩
    · exact hno n hmn hn'
    · exact he hn'.symm
  · exact hearly n c' hkn hnm (hn.of_lt (by omega))

/-- An event that neither sets, fires nor cancels a timer and is not the return
of an update. -/
theorem snoc_exact (h : a.Inv) {e : Ev} (hset : ∀ x D hd, e ≠ .timerSet x D hd) (hf : ∀ x, e ≠ .timerFired x)
    (hc : ∀ x, e ≠ .timerCancelled x) (hu : e ≠ .updated) : Exact (a.log ++ [e]) := by
  refine h.exact.snoc (fun x D hd he => absurd he (hset x D hd)) ?_ ?_ (fun x _ _ _ he => absurd he (hf x))
    fun he => absurd he hu
  · rintro x (he | he)
    · exact absurd he (hf x)
    · exact absurd he (hc x)
  · rintro x (he | he)
    · exact absurd he (hf x)
    · exact absurd he (hc x)

/-- A timer is set. -/
theorem set_step (h : a.Inv) {hd : Ptr} {x : Use} {D serial : Nat} (hlive : a.live hd = none)
    (hx : a.serial ≤ x.serial) (hs : x.serial < serial) (hD : a.now < D) :
    Timers.Inv { a with
      live := Function.update a.live hd (some (x, D)), serial, log := a.log ++ [.timerSet x D hd] } := by
  have hfresh := h.fresh hx
  refine ⟨?_, ?_, ?_, ?_, ?_, ?_, ?_, h.nested.snoc (by simp) .inl⟩
  all_goals dsimp only
  · refine h.exact.snoc ?_ ?_ ?_ ?_ (fun he => by cases he)
    · rintro y E hd' he j
      cases he
      exact hfresh j
    · rintro y (he | he) <;> cases he
    · rintro y (he | he) <;> cases he
    · rintro y k E hd' he
      cases he
  · intro k y E hd' hk
    rcases logged_snoc.1 hk with hk' | ⟨-, he⟩
    · exact Nat.lt_trans (Nat.lt_of_lt_of_le (h.serial k y E hd' hk') hx) hs
    · cases he
      exact hs
  · intro k k' y y' E E' hd₁ hd₂ hk hk' hyy
    rcases logged_snoc.1 hk with h₁ | ⟨rfl, h₁⟩ <;> rcases logged_snoc.1 hk' with h₂ | ⟨rfl, h₂⟩
    · exact h.unique k k' y y' E E' hd₁ hd₂ h₁ h₂ hyy
    · cases h₂
      exact absurd (h.serial k y E hd₁ h₁) (by omega)
    · cases h₁
      exact absurd (h.serial k' y' E' hd₂ h₂) (by omega)
    · rfl
  · intro m c hm
    rcases logged_snoc.1 hm with hm' | ⟨-, he⟩
    · exact h.past m c hm'
    · cases he
  · intro hu hd' y E hl
    by_cases hh : hd' = hd
    · rw [hh, Function.update_self] at hl
      cases hl
      exact hD
    · rw [Function.update_of_ne hh] at hl
      exact h.idle hu hd' y E hl
  · intro hd' y E hl
    by_cases hh : hd' = hd
    · subst hh
      rw [Function.update_self] at hl
      cases hl
      exact ⟨a.log.length, logged_snoc.2 (.inr ⟨rfl, rfl⟩), unresolved_snoc hfresh (by simp) (by simp),
        fun hle => absurd hle (by omega)⟩
    · rw [Function.update_of_ne hh] at hl
      obtain ⟨k, hk, hun, hreach⟩ := h.live hd' y E hl
      exact ⟨k, hk.old _, unresolved_snoc hun (by simp) (by simp), fun hle => reached_snoc (hreach hle) (by simp)⟩
  · intro k y E hd' hk
    rcases logged_snoc.1 hk with hk' | ⟨-, he⟩
    · refine (h.set k y E hd' hk').imp (fun hl => ?_) fun hr => resolved_snoc hr _
      have hh : hd' ≠ hd := by
        rintro rfl
        rw [hlive] at hl
        cases hl
      rw [Function.update_of_ne hh, hl]
    · cases he
      exact .inl (Function.update_self ..)

/-- An event that sets no timer. It may resolve timers that were live; those
that still are have been so before. -/
theorem unset_step (h : a.Inv) {a' : Timers} {e : Ev} (hlog : a'.log = a.log ++ [e])
    (hset : ∀ x D hd, e ≠ .timerSet x D hd) (hexact : Exact a'.log) (hs : a.serial ≤ a'.serial) (hnow : a.now ≤ a'.now)
    (hpast : ∀ c, e = .updating c → c ≤ a'.now)
    (hidle : a'.updating = false → ∀ hd x D, a'.live hd = some (x, D) → a'.now < D)
    (hlive : ∀ hd x D, a'.live hd = some (x, D) → a.live hd = some (x, D) ∧ e ≠ .timerFired x ∧ e ≠ .timerCancelled x)
    (hreach : ∀ hd x D k, a'.live hd = some (x, D) → Logged a.log k (.timerSet x D hd) →
      (D ≤ a.now → Reached a.log k D) → D ≤ a'.now → Reached a'.log k D)
    (hgone : ∀ hd x D, a.live hd = some (x, D) → a'.live hd = some (x, D) ∨ ∃ j, Resolves a'.log j x)
    (hnest : Nested a'.updating a'.log) : a'.Inv := by
  have hold : ∀ {k y E hd}, Logged a'.log k (.timerSet y E hd) → Logged a.log k (.timerSet y E hd) := by
    intro k y E hd hk
    rw [hlog] at hk
    rcases logged_snoc.1 hk with hk' | ⟨-, heq⟩
    · exact hk'
    · exact absurd heq.symm (hset y E hd)
  refine ⟨hexact, fun k y E hd hk => Nat.lt_of_lt_of_le (h.serial k y E hd (hold hk)) hs,
    fun k k' y y' E E' hd₁ hd₂ hk hk' => h.unique k k' y y' E E' hd₁ hd₂ (hold hk) (hold hk'), ?_, hidle, ?_, ?_, hnest⟩
  · intro m c hm
    rw [hlog] at hm
    rcases logged_snoc.1 hm with hm' | ⟨-, heq⟩
    · exact Nat.le_trans (h.past m c hm') hnow
    · exact hpast c heq.symm
  · intro hd y E hl
    obtain ⟨hl', hf, hc⟩ := hlive hd y E hl
    obtain ⟨k, hk, hun, hr⟩ := h.live hd y E hl'
    refine ⟨k, ?_, ?_, hreach hd y E k hl hk hr⟩
    · rw [hlog]
      exact hk.old e
    · rw [hlog]
      exact unresolved_snoc hun hf hc
  · intro k y E hd hk
    rcases h.set k y E hd (hold hk) with hl | hr
    · exact hgone hd y E hl
    · rw [hlog]
      exact .inr (resolved_snoc hr e)

/-- A live timer fires or is cancelled. -/
theorem resolve_step (h : a.Inv) {hd : Ptr} {x : Use} {D : Nat} (hlive : a.live hd = some (x, D)) {e : Ev}
    (he : e = .timerCancelled x ∨ e = .timerFired x ∧ D ≤ a.now) :
    Timers.Inv { a with live := Function.update a.live hd none, log := a.log ++ [e] } := by
  obtain ⟨k₀, hk₀, hun₀, hreach₀⟩ := h.live hd x D hlive
  have hnoset : ∀ y E hd', e ≠ .timerSet y E hd' := by
    rintro y E hd' rfl
    rcases he with he | ⟨he, -⟩ <;> cases he
  have hnoupd : ∀ c, e ≠ .updating c := by
    rintro c rfl
    rcases he with he | ⟨he, -⟩ <;> cases he
  have hnoend : e ≠ .updated := by
    rintro rfl
    rcases he with he | ⟨he, -⟩ <;> cases he
  have hres : ∀ y, e = .timerFired y ∨ e = .timerCancelled y → y = x := by
    rintro y (rfl | rfl)
    · rcases he with he | ⟨he, -⟩ <;> cases he
      rfl
    · rcases he with he | ⟨he, -⟩ <;> cases he
      rfl
  have hother : ∀ {hd' y E}, Function.update a.live hd none hd' = some (y, E) → hd' ≠ hd ∧ a.live hd' = some (y, E) := by
    intro hd' y E hl
    by_cases hh : hd' = hd
    · rw [hh, Function.update_self] at hl
      cases hl
    · rw [Function.update_of_ne hh] at hl
      exact ⟨hh, hl⟩
  refine h.unset_step rfl hnoset ?_ (Nat.le_refl _) (Nat.le_refl _) (fun c heq => absurd heq (hnoupd c)) ?_ ?_ ?_ ?_
    (h.nested.snoc (fun ⟨c, hc⟩ => hnoupd c hc) .inl)
  · refine h.exact.snoc (fun y E hd' heq => absurd heq (hnoset y E hd')) ?_ ?_ ?_ fun heq => absurd heq hnoend
    · intro y heq j
      rw [hres y heq]
      exact hun₀ j
    · intro y heq
      rw [hres y heq]
      exact ⟨k₀, D, hd, hk₀⟩
    · intro y k E hd' heq hk
      obtain rfl := hres y (.inl heq)
      obtain ⟨rfl, rfl, rfl⟩ := h.set_inj hk₀ hk
      rcases he with he | ⟨-, hD⟩
      · rw [heq] at he
        cases he
      · exact hreach₀ hD
  · intro hu hd' y E hl
    exact h.idle hu hd' y E (hother hl).2
  · intro hd' y E hl
    obtain ⟨hh, hl'⟩ := hother hl
    obtain ⟨k, hk, -, -⟩ := h.live hd' y E hl'
    -- the same timer would have two handles
    have hyx : y ≠ x := by
      rintro rfl
      exact hh (h.set_inj hk hk₀).2.2
    exact ⟨hl', fun heq => hyx (hres y (.inl heq)), fun heq => hyx (hres y (.inr heq))⟩
  · intro hd' y E k _ _ hreach hle
    exact reached_snoc (hreach hle) hnoend
  · intro hd' y E hl
    by_cases hh : hd' = hd
    · rw [hh, hlive] at hl
      cases hl
      refine .inr ⟨a.log.length, resolves_snoc.2 (.inr ⟨rfl, ?_⟩)⟩
      rcases he with he | ⟨he, -⟩
      · exact .inr he
      · exact .inl he
    · exact .inl ((Function.update_of_ne hh _ _).trans hl)

/-- An event that is about no timer, or the start of an update. -/
theorem quiet_step (h : a.Inv) {e : Ev} (hset : ∀ x D hd, e ≠ .timerSet x D hd) (hf : ∀ x, e ≠ .timerFired x)
    (hc : ∀ x, e ≠ .timerCancelled x) (hu : e ≠ .updated) {serial now : Nat} (hs : a.serial ≤ serial)
    (hnow : a.now ≤ now) (hpast : ∀ c, e = .updating c → c ≤ now) {updating : Bool}
    (hidle : updating = false → a.updating = false ∧ now = a.now) (hnest : Nested updating (a.log ++ [e]))
    (hreach : ∀ hd x D k, a.live hd = some (x, D) → Logged a.log k (.timerSet x D hd) → D ≤ now →
      a.now < D → Reached (a.log ++ [e]) k D) :
    Timers.Inv { a with serial, now, updating, log := a.log ++ [e] } := by
  refine h.unset_step rfl hset (h.snoc_exact hset hf hc hu) hs hnow hpast ?_ (fun hd y E hl => ⟨hl, hf y, hc y⟩) ?_
    (fun hd y E hl => .inl hl) hnest
  · intro hup hd y E hl
    obtain ⟨hup', rfl⟩ := hidle hup
    exact h.idle hup' hd y E hl
  · intro hd y E k hl hk hr hle
    by_cases hE : E ≤ a.now
    · exact reached_snoc (hr hE) hu
    · exact hreach hd y E k hl hk hle (Nat.lt_of_not_le hE)

/-- An update starts. The timers it reaches were not reached before. -/
theorem start_step (h : a.Inv) {c : Nat} (hu : a.updating = false) (hc : a.now ≤ c) :
    Timers.Inv { a with now := c, updating := true, log := a.log ++ [.updating c] } := by
  refine h.quiet_step (by simp) (by simp) (by simp) (by simp) (Nat.le_refl _) hc ?_ (by simp) ?_ ?_
  · rintro c' ⟨⟩
    exact Nat.le_refl _
  · have := h.nested
    rw [hu] at this
    exact this.start _
  · intro hd x D k _ hk hDc hD
    refine ⟨a.log.length, c, hk.lt, logged_snoc.2 (.inr ⟨rfl, rfl⟩), hDc, fun n hn hu => ?_, fun n c' _ hn hup => ?_⟩
    · exact absurd hu.lt (by simp; omega)
    · exact Nat.lt_of_le_of_lt (h.past n c' (hup.of_lt hn)) hD

/-- An update returns when no live timer is due. -/
theorem finish_step (h : a.Inv) (hdue : ∀ hd x D, a.live hd = some (x, D) → a.now < D) :
    Timers.Inv { a with updating := false, log := a.log ++ [.updated] } := by
  refine h.unset_step rfl (by simp) ?_ (Nat.le_refl _) (Nat.le_refl _) (by simp) (fun _ => hdue)
    (fun hd y E hl => ⟨hl, by simp, by simp⟩) ?_ (fun hd y E hl => .inl hl) (h.nested.snoc (by simp) fun _ => .inr rfl)
  · refine h.exact.snoc (by simp) (by simp) (by simp) (by simp) fun _ k x D hd m c hk _ hm hDc => ?_
    rcases h.set k x D hd hk with hl | hr
    · have := hdue hd x D hl
      have := h.past m c hm
      omega
    · exact hr
  · intro hd y E k hl _ _ hle
    exact absurd (hdue hd y E hl) (Nat.not_lt.2 hle)

/-- Every step of the service keeps its invariant. -/
theorem step {a' : Timers} (h : a.Inv) (hs : a.Step a') : a'.Inv := by
  cases hs with
  | set hlive hx hs hD => exact h.set_step hlive hx hs hD
  | cancel hlive => exact h.resolve_step hlive (.inl rfl)
  | start hu hc => exact h.start_step hu hc
  | late hu hc =>
    rename_i c
    -- the offset it computes has been reached before, so it is as good as any other event
    have h₁ : Timers.Inv { a with updating := true, log := a.log ++ [.updating c] } := by
      refine h.quiet_step (by simp) (by simp) (by simp) (by simp) (Nat.le_refl _) (Nat.le_refl _) ?_ ?_ ?_ ?_
      · rintro c' ⟨⟩
        exact Nat.le_of_lt hc
      · exact fun h => by cases h
      · have := h.nested
        rw [hu] at this
        exact this.start _
      · intro hd x D k _ _ hle hlt
        omega
    have h₂ := h₁.finish_step (h.idle hu)
    rw [List.append_assoc] at h₂
    have heq : { a with log := a.log ++ [.updating c, .updated] } =
        ({ a with updating := false, log := a.log ++ [.updating c, .updated] } : Timers) := by rw [← hu]
    rw [heq]
    exact h₂
  | fire _ hlive hD => exact h.resolve_step hlive (.inr ⟨rfl, hD⟩)
  | finish _ hdue => exact h.finish_step hdue
  | other he hs =>
    refine h.quiet_step ?_ ?_ ?_ ?_ hs (Nat.le_refl _) ?_ (fun h => ⟨h, rfl⟩) (h.nested.snoc ?_ .inl) ?_
    · rintro x D hd rfl
      cases he
    · rintro x rfl
      cases he
    · rintro x rfl
      cases he
    · rintro rfl
      cases he
    · rintro c rfl
      cases he
    · rintro ⟨c, rfl⟩
      cases he
    · intro hd x D k _ _ hle hlt
      omega

end Timers.Inv

end Nrappkit.Event
