import Nrappkit.Registry.CallbackTheorems
/-!
# Calls that fail half way

`NR_reg_register_callback` and `NR_reg_unregister_callback` carry out the
actions in the mask one by one and look for other bits when they are done. A
call that fails for such a bit has already changed the table, unless what it
was asked to do was done.
-/
open Lib Nrappkit.Assoc

namespace Nrappkit.Registry

/-- The (name, action, cb, cb_arg) tuples that are registered: the info blocks
in the tables. -/
def Cbs.registrations (s : Cbs) : Set nr_reg_cb_info := { x | x ∈ s.infos x.name }

theorem CInv.mem_registrations {s : Cbs} (h : CInv s) {x : nr_reg_cb_info} :
    x ∈ s.registrations ↔ s.regs x.name x.action x.cb = some x.cb_arg := by
  simp [Cbs.registrations, h.mem_infos_iff]

theorem CInv.registrations_eq {s s' : Cbs} (h : CInv s) (h' : CInv s') :
    s'.registrations = s.registrations ↔ s'.regs = s.regs := by
  constructor
  · intro heq
    funext n a c
    apply Option.ext
    intro v
    have hx : (⟨a, c, v, n⟩ : nr_reg_cb_info) ∈ s'.registrations ↔ ⟨a, c, v, n⟩ ∈ s.registrations := by rw [heq]
    simpa [h.mem_registrations, h'.mem_registrations] using hx
  · intro heq
    ext x
    rw [h.mem_registrations, h'.mem_registrations, heq]

/-- The call returns, and if it fails the registered tuples are exactly those
from before the call. -/
def AllOrNothing (s : Cbs) (op : CbOp) : Prop :=
  ∃ r s', cbStep s op = some (r, s') ∧ (r ≠ .ok → s'.registrations = s.registrations)

/-- The mask has no bits that are no action, or the arguments are refused
before anything is done, or the actions in the mask have nothing to do: they
are registered with this argument already; or none of them is registered and
the counter of the name's inner table does not read zero. -/
def CbOp.Harmless (s : Cbs) : CbOp → Prop
  | .register name mask cb cb_arg =>
    leftover mask = 0 ∨ refusal name cb ≠ .ok ∨ ∀ a ∈ bits mask, s.regs name a cb = some cb_arg
  | .unregister name mask cb =>
    leftover mask = 0 ∨ refusal name cb ≠ .ok ∨ bits mask = [] ∨
      (∀ a ∈ bits mask, s.regs name a cb = none) ∧ ∀ t, s.table name = some t → r_assoc_num_elements t ≠ 0

theorem maskStatus_ok {mask : UInt8} : maskStatus mask = .ok ↔ leftover mask = 0 := by
  by_cases h : leftover mask = 0 <;> simp [maskStatus, h]

theorem register_harmless_iff {s : Cbs} (h : CInv s) (name : Bytes) (mask : UInt8) (cb cb_arg : UInt64) :
    AllOrNothing s (.register name mask cb cb_arg) ↔ (CbOp.register name mask cb cb_arg).Harmless s := by
  obtain ⟨s', hreg, h', hregs⟩ := NR_reg_register_spec h name mask cb cb_arg
  have hstep : AllOrNothing s (.register name mask cb cb_arg) ↔
      ((if bits mask = [] ∨ refusal name cb = .ok then maskStatus mask else refusal name cb) ≠ .ok →
        s'.regs = s.regs) := by
    simp [AllOrNothing, cbStep, hreg, h.registrations_eq h']
  rw [hstep, CbOp.Harmless]
  by_cases hok : refusal name cb = .ok
  · rw [if_pos hok] at hregs
    rw [if_pos (.inr hok), hregs, setReg_eq_self, ne_eq, maskStatus_ok]
    simp only [hok, ne_eq, not_true, false_or]
    exact Decidable.or_iff_not_imp_left.symm
  · rw [if_neg hok] at hregs
    simp [hok, hregs]

/-! ## Unregistering -/

/-- With none of its actions in the table, unregistering drops the table when
its counter reads zero. -/
theorem survivors_idle {cb : UInt64} {l : List UInt8} {xs : List nr_reg_cb_info} (hl : l ≠ [])
    (h : ∀ x ∈ xs, ofActions cb l x = false) : survivors cb l xs = none ↔ xs.length % 2 ^ 32 = 0 := by
  induction l with
  | nil => exact absurd rfl hl
  | cons b l ih =>
    have hsplit : ∀ x ∈ xs, ofActions cb [b] x = false ∧ ofActions cb l x = false := by
      intro x hx
      rw [← Bool.or_eq_false_iff, ← ofActions_cons]
      exact h x hx
    have hfil : xs.filter (fun x => !ofActions cb [b] x) = xs := by
      apply List.filter_eq_self.2
      intro x hx
      simp [(hsplit x hx).1]
    rw [survivors, hfil]
    by_cases h0 : xs.length % 2 ^ 32 = 0
    · rw [if_pos h0]
      exact iff_of_true rfl h0
    · rw [if_neg h0]
      cases l with
      | nil => exact iff_of_false (Option.some_ne_none xs) h0
      | cons b' l => exact ih (List.cons_ne_nil b' l) fun x hx => (hsplit x hx).2

theorem elements_length {t : r_assoc nr_reg_cb_info} {cs : Nat → List Ptr} (h : Rep t cs) :
    t.elements.length = (order t cs).length := by
  rw [h.elements_eq]
  exact infos_length fun q hq => infoAt_some h hq

/-- Unregistering in a table leaves the registrations as they are exactly when
it has nothing to drop and the table stays. -/
theorem unregister_nothing_iff {s s' : Cbs} (h : CInv s) (h' : CInv s') {name : Bytes} {cb : UInt64} {l : List UInt8}
    (hl : l ≠ []) (hoth : ∀ n ≠ name, s'.table n = s.table n) {a : Ptr} {t : r_assoc nr_reg_cb_info}
    {cs : Nat → List Ptr} (ht : Holds s name a t cs)
    (hcase : if survivors cb l t.elements = none then Dead name a s'
      else ∃ t', Alive name a t cs (keeps t cb l) s' t') :
    s'.regs = s.regs ↔ (∀ a ∈ l, s.regs name a cb = none) ∧ r_assoc_num_elements t ≠ 0 := by
  have hidle : (∀ a ∈ l, s.regs name a cb = none) → (survivors cb l t.elements = none ↔ r_assoc_num_elements t = 0) := by
    intro hnone
    rw [num_elements_zero ht.inner.count, ← elements_length ht.inner.rep]
    apply survivors_idle hl
    intro x hx
    by_contra hof
    simp only [ofActions, Bool.not_eq_false, Bool.and_eq_true, decide_eq_true_eq] at hof
    have hmem : x ∈ s.infos name := by simpa [Cbs.infos, ht.table] using hx
    have hsome := (h.mem_infos_iff.1 hmem).2
    rw [hof.1, hnone x.action hof.2] at hsome
    cases hsome
  split at hcase
  · -- the counter read zero on the way
    rename_i hsv
    constructor
    · intro heq
      -- The table held some registration, and now it is gone.
      have hget : (s.nr_registry_callbacks.get (nameKey name)).isSome := by simp [r_assoc.get, ht.entry]
      obtain ⟨b, c, arg, hreg⟩ := (h.outer_iff name).1 hget
      rw [← heq] at hreg
      simp [Cbs.regs, hcase.table] at hreg
    · rintro ⟨hnone, hne⟩
      exact absurd ((hidle hnone).1 hsv) hne
  · rename_i hsv
    obtain ⟨t', halive⟩ := hcase
    rw [regs_of_infos h h' hoth (halive.infos ht), setReg_eq_self]
    constructor
    · intro hnone
      exact ⟨hnone, fun h0 => hsv ((hidle hnone).2 h0)⟩
    · intro hnone
      exact hnone.1

theorem unregister_harmless_iff {s : Cbs} (h : CInv s) (name : Bytes) (mask : UInt8) (cb : UInt64) :
    AllOrNothing s (.unregister name mask cb) ↔ (CbOp.unregister name mask cb).Harmless s := by
  obtain ⟨s', heach, h', hcase⟩ := each_unregister_cases h name cb (l := bits mask) fun a => mem_bits
  have hstep : AllOrNothing s (.unregister name mask cb) ↔
      ((if bits mask = [] ∨ refusal name cb = .ok then maskStatus mask else refusal name cb) ≠ .ok →
        s'.regs = s.regs) := by
    rw [AllOrNothing, cbStep, NR_reg_unregister_eq, heach]
    by_cases hnil : bits mask = [] <;> by_cases hok : refusal name cb = .ok <;>
      simp [hnil, hok, h.registrations_eq h']
  rw [hstep, CbOp.Harmless]
  rcases hcase with ⟨rfl, hno⟩ | ⟨hnil, hok, hoth, a, t, cs, ht, hcase⟩
  · -- nothing was done: no action, arguments that are refused, or no table
    rcases hno with hnil | hno | hnone
    · simp [hnil]
    · simp [hno]
    · simp [hnone, Cbs.regs]
  · rw [if_pos (.inr hok), unregister_nothing_iff h h' hnil hoth ht hcase, ne_eq, maskStatus_ok]
    simp only [hok, ne_eq, not_true, false_or, hnil, ht.table, Option.some.injEq, forall_eq']
    exact Decidable.or_iff_not_imp_left.symm

/-! ## All or nothing -/

/-- In every table a run can reach, a call is all or nothing exactly when it is
`Harmless`. -/
theorem all_or_nothing_iff {evs : List (CbOp × Status)} {s : Cbs}
    (hrun : Run cbStep (fun _ _ => True) nr_reg_cb_init evs s) (op : CbOp) : AllOrNothing s op ↔ op.Harmless s := by
  have h := run_cinv hrun
  cases op with
  | register name mask cb cb_arg => exact register_harmless_iff h name mask cb cb_arg
  | unregister name mask cb => exact unregister_harmless_iff h name mask cb

/-- What is registered already is registered again without harm, whatever else
is in the mask. -/
theorem all_or_nothing_again :
    ∃ s, Run cbStep (fun _ _ => True) nr_reg_cb_init [(.register (str "a") 1 8 7, .ok)] s ∧
      AllOrNothing s (.register (str "a") 9 8 7) := by
  have hex : (exec cbStep (fun _ _ => true) nr_reg_cb_init [.register (str "a") 1 8 7]).any (fun r => r.1 = [.ok] &&
      decide (∀ a ∈ bits 9, r.2.regs (str "a") a 8 = some 7)) = true := by decide +kernel
  obtain ⟨⟨rs, s⟩, hrun, hr⟩ := (Option.any_eq_true _ _).1 hex
  obtain ⟨hrs, hreg⟩ := Bool.and_eq_true_iff.1 hr
  obtain rfl : rs = [.ok] := by simpa using hrs
  have hrun : Run cbStep (fun _ _ => True) nr_reg_cb_init _ s := (Run.exec .nil hrun).mono fun _ _ _ => trivial
  exact ⟨s, hrun, (all_or_nothing_iff hrun _).2 (.inr (.inr (of_decide_eq_true hreg)))⟩

theorem not_allOrNothing {s s' : Cbs} {op : CbOp} {r : Status} (hst : cbStep s op = some (r, s')) (hr : r ≠ .ok)
    {x : nr_reg_cb_info} (hx : ¬ (x ∈ s'.registrations ↔ x ∈ s.registrations)) : ¬ AllOrNothing s op := by
  rintro ⟨r', s₁, hst', hall⟩
  rw [hst] at hst'
  cases hst'
  apply hx
  rw [hall hr]

/-- With `ADD` registered on `a`: registering for `DELETE` and an unknown bit
fails and registers for `DELETE`; unregistering from `ADD` and an unknown bit
fails and unregisters. -/
theorem half_way :
    ∃ s, Run cbStep (fun _ _ => True) nr_reg_cb_init [(.register (str "a") 1 8 7, .ok)] s ∧
      (∃ s', cbStep s (.register (str "a") 12 8 7) = some (.R_BAD_ARGS, s') ∧ ⟨4, 8, 7, str "a"⟩ ∈ s'.registrations) ∧
      (∃ s', cbStep s (.unregister (str "a") 9 8) = some (.R_BAD_ARGS, s') ∧ ⟨1, 8, 7, str "a"⟩ ∉ s'.registrations) ∧
      ¬ AllOrNothing s (.register (str "a") 12 8 7) ∧ ¬ AllOrNothing s (.unregister (str "a") 9 8) := by
  have hex : (exec cbStep (fun _ _ => true) nr_reg_cb_init [.register (str "a") 1 8 7]).any (fun r => r.1 = [.ok] &&
      decide (r.2.infos (str "a") = [⟨1, 8, 7, str "a"⟩]) &&
      (cbStep r.2 (.register (str "a") 12 8 7)).any (fun q => q.1 = .R_BAD_ARGS &&
        decide (⟨4, 8, 7, str "a"⟩ ∈ q.2.infos (str "a"))) &&
      (cbStep r.2 (.unregister (str "a") 9 8)).any (fun q => q.1 = .R_BAD_ARGS &&
        decide (⟨1, 8, 7, str "a"⟩ ∉ q.2.infos (str "a")))) = true := by decide +kernel
  obtain ⟨⟨rs, s⟩, hrun, hr⟩ := (Option.any_eq_true _ _).1 hex
  simp only [Bool.and_eq_true, decide_eq_true_eq] at hr
  obtain ⟨⟨⟨hrs, hinfos⟩, hreg⟩, hun⟩ := hr
  subst hrs
  obtain ⟨⟨r₁, s₁⟩, hst₁, hin₁⟩ := (Option.any_eq_true _ _).1 hreg
  obtain ⟨⟨r₂, s₂⟩, hst₂, hin₂⟩ := (Option.any_eq_true _ _).1 hun
  simp only [Bool.and_eq_true, decide_eq_true_eq] at hin₁ hin₂
  obtain ⟨rfl, hin₁⟩ := hin₁
  obtain ⟨rfl, hin₂⟩ := hin₂
  refine ⟨s, (Run.exec .nil hrun).mono fun _ _ _ => trivial, ⟨s₁, hst₁, hin₁⟩, ⟨s₂, hst₂, hin₂⟩, ?_, ?_⟩
  · refine not_allOrNothing hst₁ (by decide) (x := ⟨4, 8, 7, str "a"⟩) fun hiff => ?_
    have hold := hiff.1 hin₁
    simp [Cbs.registrations, hinfos] at hold
  · refine not_allOrNothing hst₂ (by decide) (x := ⟨1, 8, 7, str "a"⟩) fun hiff => ?_
    apply hin₂
    apply hiff.2
    simp [Cbs.registrations, hinfos]

end Nrappkit.Registry
