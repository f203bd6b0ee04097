import Nrappkit.Registry.Announce
/-!
# Setters that fail

A setter that returns an error changes nothing, unless it strands a node. The
node it strands may have been released, and then a later call that meets the
name reads it: on the name itself, or on the way up from a name below it.
-/
open Lib Nrappkit.Assoc

namespace Nrappkit.Registry

/-- The setter returns, and if it returns an error, every name has the type and
value it had. -/
def FailureAtomic (beh : nr_reg_cb_info → UInt8) (s : Reg) (name : Bytes) (arg : Arg) : Prop :=
  ∃ r s', set beh s name arg = some (r, s') ∧ (r ≠ .ok → s'.map = s.map)

variable {beh : nr_reg_cb_info → UInt8} {s : Reg} {name : Bytes}

theorem Reaches.cinv {ok : Reg → RegOp → Prop} {evs : List (RegOp × Status)} (h : Reaches beh ok evs s) : CInv s.cbs := by
  obtain ⟨s₀, hi, hrun⟩ := h
  have h₀ : CInv s₀.cbs := (set_registry_raises _ _ _ _ _ hi).cinv init_cinv
  exact hrun.inv (fun s => CInv s.cbs) h₀ fun s op r s' hs _ hst =>
    pubStep_cinv hs (show pubStep beh s (.reg op) = some (r, s') from hst)

/-- One call. -/
theorem failure_atomic_iff (h : RInv s) (hq : Quiet beh s.cbs) (arg : Arg) :
    FailureAtomic beh s name arg ↔ strands s name = false ∧ reads_released s name = false := by
  constructor
  · rintro ⟨r, s', hst, hat⟩
    refine ⟨?_, (setter_returns_iff h hq arg).1 ⟨r, s', hst⟩⟩
    by_contra hs
    obtain ⟨hp, r₁, s₁, hst₁, hne, -, hhere⟩ : s.ptr name = none ∧ ∃ r s', set beh s name arg = some (r, s') ∧ r ≠ .ok ∧
        RInv s' ∧ (s'.ptr name).isSome := set_strands h arg (by simpa using hs)
    rw [hst] at hst₁
    cases hst₁
    have hnone : s'.ptr name = none := by rw [← map_none, hat hne, map_none, hp]
    rw [hnone] at hhere
    cases hhere
  · rintro ⟨hs, hl⟩
    obtain ⟨r, s', hst⟩ := (setter_returns_iff h hq arg).2 hl
    refine ⟨r, s', hst, fun hne => ?_⟩
    rcases set_cases h hs hst with ⟨-, rfl⟩ | ⟨-, -, -, -, -, hr, -⟩ | ⟨-, -, -, hr, -⟩
    · rfl
    · exact absurd hr hne
    · exact absurd hr hne

/-- After every run a setter returns and, where it fails, changes nothing, exactly
when it neither strands a node nor reads a released one. In runs in which none
strands a node, none is left released. -/
theorem failed_set_atomic_iff {evs : List (RegOp × Status)} (h : Reaches (fun _ => 0) (fun _ _ => True) evs s) :
    (∀ name arg, FailureAtomic (fun _ => 0) s name arg ↔ strands s name = false ∧ reads_released s name = false) ∧
      (Reaches (fun _ => 0) Safe evs s → (∀ n, s.map n ≠ some none) ∧ ∀ name, reads_released s name = false) :=
  ⟨fun _ arg => failure_atomic_iff h.rinv (quiet_of_zero h.cinv) arg,
    fun hsafe => ⟨hsafe.tree.live, hsafe.tree.live_nodes.not_read⟩⟩

/-- With `a.b` stranded below an integer, bytes for `a` are refused without a
change, and `a.b.c` reads the node of `a.b`. -/
theorem failed_set_atomic_stranded :
    ∃ s, Reaches (fun _ => 0) (fun _ _ => True) [(.set (str "a") (.scalar (._nr_int4 5)), .ok),
        (.set (str "a.b") (.scalar (._nr_int4 6)), .R_FAILED)] s ∧
      FailureAtomic (fun _ => 0) s (str "a") (.bytes [1]) ∧
      ¬ FailureAtomic (fun _ => 0) s (str "a.b.c") (.scalar (._nr_int4 7)) := by
  have hex : (trace (fun _ => 0) (fun _ _ => true) [.set (str "a") (.scalar (._nr_int4 5)),
      .set (str "a.b") (.scalar (._nr_int4 6))]).any (fun x => x.1 = [.ok, .R_FAILED] && (!strands x.2 (str "a") &&
        !reads_released x.2 (str "a")) && reads_released x.2 (str "a.b.c")) = true := by decide +kernel
  obtain ⟨⟨rs, s⟩, htr, hx⟩ := (Option.any_eq_true _ _).1 hex
  simp only [Bool.and_eq_true, decide_eq_true_eq, Bool.not_eq_true'] at hx
  obtain ⟨⟨rfl, ha⟩, hread⟩ := hx
  have hreach : Reaches (fun _ => 0) (fun _ _ => True) _ s := (trace_reaches htr).mono fun _ _ _ => trivial
  have hiff := (failed_set_atomic_iff hreach).1
  refine ⟨s, hreach, (hiff _ _).2 ha, fun hat => ?_⟩
  rw [((hiff _ _).1 hat).2] at hread
  cases hread

/-- `a.b` is refused where `a` holds an integer, and stays behind with a node
that was released. -/
theorem failed_set_strands_node :
    ∃ s s', Reaches (fun _ => 0) (fun _ _ => True) [(.set (str "a") (.scalar (._nr_int4 5)), .ok)] s ∧
      set (fun _ => 0) s (str "a.b") (.scalar (._nr_int4 6)) = some (.R_FAILED, s') ∧
      s.map (str "a.b") = none ∧ s'.map (str "a.b") = some none ∧
      ¬ FailureAtomic (fun _ => 0) s (str "a.b") (.scalar (._nr_int4 6)) := by
  have hex : (trace (fun _ => 0) (fun _ _ => true) [.set (str "a") (.scalar (._nr_int4 5))]).any (fun x =>
      x.1 = [.ok] && x.2.map (str "a.b") = none && (set (fun _ => 0) x.2 (str "a.b") (.scalar (._nr_int4 6))).any
        fun y => y.1 = .R_FAILED && y.2.map (str "a.b") = some none) = true := by decide +kernel
  obtain ⟨⟨rs, s⟩, htr, hx⟩ := (Option.any_eq_true _ _).1 hex
  simp only [Bool.and_eq_true, decide_eq_true_eq] at hx
  obtain ⟨⟨rfl, hnone⟩, hy⟩ := hx
  obtain ⟨⟨r, s'⟩, hst, hy⟩ := (Option.any_eq_true _ _).1 hy
  simp only [Bool.and_eq_true, decide_eq_true_eq] at hy
  obtain ⟨rfl, hdead⟩ := hy
  refine ⟨s, s', (trace_reaches htr).mono fun _ _ _ => trivial, hst, hnone, hdead, ?_⟩
  rintro ⟨r, s₁, hst₁, hat⟩
  rw [hst] at hst₁
  cases hst₁
  rw [hat (by decide), hnone] at hdead
  cases hdead

end Nrappkit.Registry
