import Mathlib.Data.List.Nodup
import Mathlib.Logic.Function.Basic
import Mathlib.Tactic.Common
/-!
# Broadcasting

A server sends each item to all its listeners, one after the other, and drops a
listener it cannot reach. What arrives at a listener is in its log; it may be
less than what was sent.
-/

namespace Lib

variable {R α : Type}

structure Broadcast (R α : Type) where
  listeners : List R
  log : R → List α

def Broadcast.join (b : Broadcast R α) (r : R) : Broadcast R α := { b with listeners := b.listeners ++ [r] }

theorem Broadcast.nodup_join {b : Broadcast R α} {r : R} (hn : b.listeners.Nodup) (hr : r ∉ b.listeners) :
    (b.join r).listeners.Nodup := by
  refine List.nodup_append.2 ⟨hn, List.nodup_singleton r, fun s hs t ht heq => hr ?_⟩
  rw [List.mem_singleton] at ht
  rwa [← ht, ← heq]

section
variable [DecidableEq R]

/-- Send to some listeners; `put` says what arrives at a listener with its log, if
it can be reached. -/
def sendTo (put : R → List α → α → Option α) (x : α) : List R → (R → List α) → List R × (R → List α)
  | [], log => ([], log)
  | r :: rs, log =>
    match put r (log r) x with
    | some y =>
      let sent := sendTo put x rs (Function.update log r (log r ++ [y]))
      (r :: sent.1, sent.2)
    | none => sendTo put x rs log

def Broadcast.send (put : R → List α → α → Option α) (b : Broadcast R α) (x : α) : Broadcast R α :=
  let sent := sendTo put x b.listeners b.log
  ⟨sent.1, sent.2⟩

variable (put : R → List α → α → Option α) (x : α)

/-- Each listener is tried with the log it had. -/
theorem sendTo_spec {rs : List R} (hn : rs.Nodup) (log : R → List α) :
    (sendTo put x rs log).1 = rs.filter (fun r => (put r (log r) x).isSome) ∧
      ∀ r, (sendTo put x rs log).2 r = if r ∈ rs then log r ++ (put r (log r) x).toList else log r := by
  induction rs generalizing log with
  | nil => exact ⟨rfl, fun r => by simp [sendTo]⟩
  | cons s rs ih =>
    obtain ⟨hs, hn⟩ := List.nodup_cons.1 hn
    rw [sendTo]
    cases hput : put s (log s) x with
    | some y =>
      obtain ⟨hfst, hsnd⟩ := ih hn (Function.update log s (log s ++ [y]))
      refine ⟨?_, fun r => ?_⟩
      · rw [List.filter_cons, if_pos (by rw [hput]; rfl), List.cons.injEq, hfst]
        refine ⟨rfl, List.filter_congr fun r hmem => ?_⟩
        have hne : r ≠ s := by
          rintro rfl
          exact hs hmem
        rw [Function.update_of_ne hne]
      · dsimp only
        rw [hsnd]
        by_cases hrs : r = s
        · subst hrs
          simp [hs, hput]
        · simp [hrs]
    | none =>
      obtain ⟨hfst, hsnd⟩ := ih hn log
      refine ⟨?_, fun r => ?_⟩
      · rw [List.filter_cons, if_neg (by simp [hput])]
        exact hfst
      · dsimp only
        rw [hsnd]
        by_cases hrs : r = s
        · subst hrs
          simp [hs, hput]
        · simp [hrs]

end

/-- What was sent since `r` joined: its log is the start of it, and all of it
while `r` listens. -/
structure Hears (b : Broadcast R α) (history : List α) (r : R) : Prop where
  nodup : b.listeners.Nodup
  start : b.log r <+: history
  all : r ∈ b.listeners → b.log r = history

namespace Hears
variable {b : Broadcast R α} {history : List α} {r s : R}

/-- A listener that joins has heard nothing. -/
theorem joined (hn : b.listeners.Nodup) (hr : r ∉ b.listeners) (hlog : b.log r = []) : Hears (b.join r) [] r where
  nodup := Broadcast.nodup_join hn hr
  start := List.prefix_nil.2 hlog
  all _ := hlog

/-- Others may join. -/
theorem join (h : Hears b history r) (hs : s ∉ b.listeners) (hne : r ≠ s) : Hears (b.join s) history r where
  nodup := Broadcast.nodup_join h.nodup hs
  start := h.start
  all hr := h.all (by simpa [Broadcast.join, hne] using hr)

section
variable [DecidableEq R] {put : R → List α → α → Option α}

/-- What is put arrives whole. -/
theorem send (hwhole : ∀ r log x y, put r log x = some y → y = x) (h : Hears b history r) (x : α) :
    Hears (b.send put x) (history ++ [x]) r := by
  obtain ⟨hfst, hsnd⟩ := sendTo_spec put x h.nodup b.log
  have hlisten : (b.send put x).listeners = b.listeners.filter fun r => (put r (b.log r) x).isSome := hfst
  have hlog : (b.send put x).log r = if r ∈ b.listeners then b.log r ++ (put r (b.log r) x).toList else b.log r := hsnd r
  refine ⟨by rw [hlisten]; exact h.nodup.filter _, ?_, fun hr => ?_⟩
  · rw [hlog]
    split
    · rename_i hr
      rw [h.all hr]
      refine (List.prefix_append_right_inj _).2 ?_
      cases hput : put r history x with
      | none => exact List.nil_prefix
      | some y =>
        rw [hwhole _ _ _ _ hput]
        exact List.prefix_rfl
    · exact h.start.trans (List.prefix_append history [x])
  · rw [hlisten, List.mem_filter] at hr
    obtain ⟨hmem, hsome⟩ := hr
    obtain ⟨y, hput⟩ := Option.isSome_iff_exists.1 hsome
    rw [hlog, if_pos hmem, hput, hwhole _ _ _ _ hput, h.all hmem, Option.toList_some]

/-- Several items, one after the other. -/
theorem sends (hwhole : ∀ r log x y, put r log x = some y → y = x) (h : Hears b history r) (xs : List α) :
    Hears (xs.foldl (Broadcast.send put) b) (history ++ xs) r := by
  induction xs generalizing b history with
  | nil => simpa using h
  | cons x xs ih =>
    have hstep : Hears (xs.foldl (Broadcast.send put) (b.send put x)) (history ++ [x] ++ xs) r := ih (h.send hwhole x)
    rwa [List.append_assoc] at hstep

end

end Hears

section
variable [DecidableEq R] {b : Broadcast R α} (put : R → List α → α → Option α)

/-- A send adds no listener, changes no other log and takes nothing back. -/
theorem Broadcast.send_others (hn : b.listeners.Nodup) (x : α) :
    (b.send put x).listeners.Nodup ∧ (∀ r ∈ (b.send put x).listeners, r ∈ b.listeners) ∧
      (∀ r, r ∉ b.listeners → (b.send put x).log r = b.log r) ∧ ∀ r, b.log r <+: (b.send put x).log r := by
  obtain ⟨hfst, hsnd⟩ := sendTo_spec put x hn b.log
  have hlisten : (b.send put x).listeners = b.listeners.filter fun r => (put r (b.log r) x).isSome := hfst
  refine ⟨?_, fun r hr => ?_, fun r hr => (hsnd r).trans (if_neg hr), fun r => ?_⟩
  · rw [hlisten]
    exact hn.filter _
  · rw [hlisten] at hr
    exact (List.mem_filter.1 hr).1
  · show b.log r <+: (sendTo put x b.listeners b.log).2 r
    rw [hsnd]
    split
    · exact List.prefix_append _ _
    · exact List.prefix_rfl

theorem Broadcast.sends_others (hn : b.listeners.Nodup) (xs : List α) :
    (xs.foldl (Broadcast.send put) b).listeners.Nodup ∧
      (∀ r ∈ (xs.foldl (Broadcast.send put) b).listeners, r ∈ b.listeners) ∧
      (∀ r, r ∉ b.listeners → (xs.foldl (Broadcast.send put) b).log r = b.log r) ∧
      ∀ r, b.log r <+: (xs.foldl (Broadcast.send put) b).log r := by
  induction xs generalizing b with
  | nil => exact ⟨hn, fun r hr => hr, fun r _ => rfl, fun r => List.prefix_rfl⟩
  | cons x xs ih =>
    obtain ⟨hn₁, hsub₁, hlog₁, hpre₁⟩ := Broadcast.send_others put hn x
    obtain ⟨hn₂, hsub₂, hlog₂, hpre₂⟩ := ih hn₁
    refine ⟨hn₂, fun r hr => hsub₁ r (hsub₂ r hr), fun r hr => ?_, fun r => (hpre₁ r).trans (hpre₂ r)⟩
    exact (hlog₂ r fun hmem => hr (hsub₁ r hmem)).trans (hlog₁ r hr)

end

end Lib
