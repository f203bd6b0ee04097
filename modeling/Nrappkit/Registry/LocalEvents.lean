import Mathlib.Data.Set.Insert
import Nrappkit.Registry.LocalReads
/-!
# The event stream

An observer of the events keeps a set of names: `ADD` puts a name in, `DELETE`
takes out a name and everything below it. After every run of calls that return
0 the observer has the stored names.
-/
open Lib Nrappkit.Assoc

namespace Nrappkit.Registry

variable {beh : nr_reg_cb_info → UInt8} {s s' : Reg} {name : Bytes}

/-! ## The observer -/

/-- `m` is `n`, starts with `n` and a dot, or `n` is the root. -/
def Below (n m : Bytes) : Prop := n = [] ∨ m = n ∨ ∃ r, m = n ++ dot :: r

def replayOne (K : Set Bytes) (e : Bytes × UInt8) : Set Bytes :=
  if e.2 = NR_REG_CB_ACTION_ADD then insert e.1 K
  else if e.2 = NR_REG_CB_ACTION_DELETE then {m | m ∈ K ∧ ¬ Below e.1 m}
  else K

def replay (K : Set Bytes) (events : List (Bytes × UInt8)) : Set Bytes := events.foldl replayOne K

/-- An `ADD` is for a name the observer does not have, and all of its ancestors
are there; a `CHANGE` is for a name the observer has. -/
def LegalOne (K : Set Bytes) (e : Bytes × UInt8) : Prop :=
  (e.2 = NR_REG_CB_ACTION_ADD → e.1 ∉ K ∧ ∀ a, Ancestor a e.1 → a ∈ K) ∧
    (e.2 = NR_REG_CB_ACTION_CHANGE → e.1 ∈ K)

def Legal : Set Bytes → List (Bytes × UInt8) → Prop
  | _, [] => True
  | K, e :: es => LegalOne K e ∧ Legal (replayOne K e) es

/-- The stored names. -/
def Reg.keys (s : Reg) : Set Bytes := {n | s.map n ≠ none}

theorem replay_append (K : Set Bytes) (l₁ l₂ : List (Bytes × UInt8)) :
    replay K (l₁ ++ l₂) = replay (replay K l₁) l₂ := List.foldl_append

theorem legal_append {K : Set Bytes} {l₁ l₂ : List (Bytes × UInt8)} :
    Legal K (l₁ ++ l₂) ↔ Legal K l₁ ∧ Legal (replay K l₁) l₂ := by
  induction l₁ generalizing K with
  | nil => exact ⟨fun h => ⟨trivial, h⟩, fun h => h.2⟩
  | cons e l₁ ih =>
    rw [List.cons_append, Legal, Legal, ih, and_assoc]
    rfl

theorem delete_ne_add : NR_REG_CB_ACTION_DELETE ≠ NR_REG_CB_ACTION_ADD := by decide
theorem change_ne_add : NR_REG_CB_ACTION_CHANGE ≠ NR_REG_CB_ACTION_ADD := by decide
theorem change_ne_delete : NR_REG_CB_ACTION_CHANGE ≠ NR_REG_CB_ACTION_DELETE := by decide

theorem replayOne_add (K : Set Bytes) (n : Bytes) : replayOne K (n, NR_REG_CB_ACTION_ADD) = insert n K := if_pos rfl

theorem replayOne_delete (K : Set Bytes) (n : Bytes) :
    replayOne K (n, NR_REG_CB_ACTION_DELETE) = {m | m ∈ K ∧ ¬ covers n m = true} := by
  ext m
  rw [replayOne, if_neg delete_ne_add, if_pos rfl, Set.mem_ofPred_eq, Set.mem_ofPred_eq, covers_iff]
  rfl

theorem replayOne_change (K : Set Bytes) (n : Bytes) : replayOne K (n, NR_REG_CB_ACTION_CHANGE) = K := by
  rw [replayOne, if_neg change_ne_add, if_neg change_ne_delete]

theorem replay_adds (K : Set Bytes) (l : List Bytes) :
    replay K (l.map (·, NR_REG_CB_ACTION_ADD)) = {n | n ∈ K ∨ n ∈ l} := by
  induction l generalizing K with
  | nil =>
    ext n
    simp [replay]
  | cons a l ih =>
    show replay (replayOne K (a, NR_REG_CB_ACTION_ADD)) _ = _
    rw [ih, replayOne_add]
    ext n
    simp only [Set.mem_ofPred_eq, Set.mem_insert_iff, List.mem_cons]
    tauto

/-- A name the observer got from the events was added by one of them. -/
theorem mem_replay {K : Set Bytes} {l : List (Bytes × UInt8)} {n : Bytes} (h : n ∈ replay K l) :
    n ∈ K ∨ (n, NR_REG_CB_ACTION_ADD) ∈ l := by
  induction l generalizing K with
  | nil => exact .inl h
  | cons e l ih =>
    rcases ih h with hk | hl
    · rw [replayOne] at hk
      split at hk
      · rename_i hadd
        rcases hk with rfl | hk
        · exact .inr (by rw [← hadd]; simp)
        · exact .inl hk
      · split at hk
        · exact .inl hk.1
        · exact .inl hk
    · exact .inr (by simp [hl])

/-- In a legal stream, the missing ancestors of a name are added before it. -/
theorem legal_order {K : Set Bytes} {pre post : List (Bytes × UInt8)} {n a : Bytes}
    (h : Legal K (pre ++ (n, NR_REG_CB_ACTION_ADD) :: post)) (ha : Ancestor a n) (hK : a ∉ K) :
    (a, NR_REG_CB_ACTION_ADD) ∈ pre := by
  obtain ⟨-, hone, -⟩ := legal_append.1 h
  exact (mem_replay ((hone.1 rfl).2 a ha)).resolve_left hK

/-! ## What a call raises -/

/-- The events of a new node and its new ancestors. -/
theorem legal_created (ht : Tree s.map) (hp : s.ptr name = none) (hpf : parentsFail s name = false) :
    Legal s.keys ((newAncestors s name).reverse.map (·, NR_REG_CB_ACTION_ADD) ++ [(name, NR_REG_CB_ACTION_ADD)]) := by
  induction hn : name.length using Nat.strongRecOn generalizing name with
  | ind k ih =>
    have hlast : LegalOne (replay s.keys ((newAncestors s name).reverse.map (·, NR_REG_CB_ACTION_ADD)))
        (name, NR_REG_CB_ACTION_ADD) := by
      rw [replay_adds]
      refine ⟨fun _ => ⟨?_, fun a ha => ?_⟩, fun h => absurd h change_ne_add.symm⟩
      · rintro (hkey | hnew)
        · exact hkey (map_none.2 hp)
        · exact absurd (newAncestors_ancestor (List.mem_reverse.1 hnew)).length (Nat.lt_irrefl _)
      · rcases ancestors_new_or_registry ht hpf (mem_ancestors.2 ha) with hnew | hreg
        · exact .inr (List.mem_reverse.2 hnew)
        · exact .inl (by simp [Reg.keys, hreg])
    refine legal_append.2 ⟨?_, hlast, trivial⟩
    cases hd : beforeLastDot name with
    | none =>
      rw [newAncestors_none hd]
      trivial
    | some p =>
      cases hpp : s.ptr p with
      | some q =>
        rw [newAncestors_stored hd hpp]
        trivial
      | none =>
        rw [newAncestors_absent hd hpp, List.reverse_cons, List.map_append]
        refine ih p.length (hn ▸ beforeLastDot_length hd) hpp ?_ rfl
        by_cases hst : stops s p = true
        · rw [parentsFail_stop hd hst, blocked, Bool.or_eq_false_iff, decide_eq_false_iff_not, not_not] at hpf
          simp [stops, hpf.1, hpp] at hst
        · rwa [parentsFail_go hd (by simpa using hst)] at hpf

/-- A setter finds its value to differ when it does, doubles apart. -/
theorem differs_eq {arg : Arg} (hd : arg.type ≠ .DOUBLE) {node : Node} (ht : node.type = arg.type) :
    arg.differs node.value = decide (node.value ≠ arg.value) := by
  rw [Bool.eq_iff_iff, decide_eq_true_eq]
  cases arg with
  | scalar d =>
    cases node with
    | scalar v =>
      have hne := Scalar.ne_eq_false ht hd
      show v.ne d = true ↔ Value.scalar v ≠ .scalar d
      rw [ne_eq, Value.scalar.injEq, ← hne, Bool.not_eq_false]
    | registry => cases d <;> cases ht
    | array string _ _ => cases d <;> cases string <;> cases ht
  | registry =>
    rw [registry_of_type ht]
    exact ⟨(by cases ·), fun h => absurd rfl h⟩
  | bytes b =>
    cases node with
    | scalar v => cases v <;> cases ht
    | registry => cases ht
    | array string length data =>
      cases string with
      | true => cases ht
      | false => simp [Arg.differs, Node.value, Arg.value]
  | string b =>
    cases node with
    | scalar v => cases v <;> cases ht
    | registry => cases ht
    | array string length data =>
      cases string with
      | true => simp [Arg.differs, Node.value, Arg.value]
      | false => cases ht

/-- What one call tells the observer. -/
structure Tells (s : Reg) (op : RegOp) (s' : Reg) (new : List (Bytes × UInt8)) : Prop where
  events : s'.events = s.events ++ new
  legal : Legal s.keys new
  keys : replay s.keys new = s'.keys
  /-- A setter on a stored name raises one `CHANGE` if the value differs, and
  nothing otherwise. -/
  change : ∀ name arg v, op = .set name arg → arg.type ≠ .DOUBLE → s.map name = some (some v) →
    new = if v = arg.value then [] else [(name, NR_REG_CB_ACTION_CHANGE)]

theorem Tells.overwritten {node : Node} {arg : Arg} (hm : s.map name = some (some node.value))
    (htype : node.type = arg.type) {v : Value} (hmap : s'.map = Function.update s.map name (some (some v)))
    (hev : s'.events = s.events ++ if arg.differs node.value then [(name, NR_REG_CB_ACTION_CHANGE)] else []) :
    Tells s (.set name arg) s' (if arg.differs node.value then [(name, NR_REG_CB_ACTION_CHANGE)] else []) := by
  have hin : name ∈ s.keys := by simp [Reg.keys, hm]
  have hkeys : s'.keys = s.keys := by
    ext n
    by_cases hn : n = name
    · simp [Reg.keys, hmap, hn, hm]
    · simp [Reg.keys, hmap, Function.update_of_ne hn]
  refine ⟨hev, ?_, ?_, fun n a w hop hd hw => ?_⟩
  · split
    · exact ⟨⟨fun h => absurd h change_ne_add, fun _ => hin⟩, trivial⟩
    · trivial
  · rw [hkeys]
    split
    · exact replayOne_change s.keys name
    · rfl
  · cases hop
    rw [hm] at hw
    cases hw
    rw [differs_eq hd htype]
    by_cases hv : node.value = arg.value <;> simp [hv]

theorem Tells.created (ht : Tree s.map) (hp : s.ptr name = none) (hpf : parentsFail s name = false) {v : Value}
    (hc : Created s name v s') (arg : Arg) : Tells s (.set name arg) s'
      ((newAncestors s name).reverse.map (·, NR_REG_CB_ACTION_ADD) ++ [(name, NR_REG_CB_ACTION_ADD)]) := by
  refine ⟨by rw [hc.events, List.append_assoc], legal_created ht hp hpf, ?_, fun n a w hop _ hw => ?_⟩
  · rw [replay_append, replay_adds]
    show replayOne _ (name, NR_REG_CB_ACTION_ADD) = _
    rw [replayOne_add]
    ext n
    simp only [Set.mem_insert_iff, Set.mem_ofPred_eq, List.mem_reverse, Reg.keys, hc.map]
    by_cases hn : n = name
    · simp [hn]
    · by_cases hnew : n ∈ newAncestors s name <;> simp [hn, hnew]
  · cases hop
    rw [map_none.2 hp] at hw
    cases hw

theorem Tells.deleted (hmap : s'.map = fun m => if name = [] ∧ m = [] then some (some .registry)
      else if covers name m then none else s.map m)
    (hev : s'.events = s.events ++ (name, NR_REG_CB_ACTION_DELETE) ::
      if name = [] then [([], NR_REG_CB_ACTION_ADD)] else []) :
    Tells s (.del name) s' ((name, NR_REG_CB_ACTION_DELETE) ::
      if name = [] then [([], NR_REG_CB_ACTION_ADD)] else []) := by
  have hone : LegalOne s.keys (name, NR_REG_CB_ACTION_DELETE) :=
    ⟨fun h => absurd h delete_ne_add, fun h => absurd h change_ne_delete.symm⟩
  refine ⟨hev, ⟨hone, ?_⟩, ?_, fun n a w hop => by cases hop⟩
  · rw [replayOne_delete]
    split
    · rename_i hroot
      subst hroot
      refine ⟨⟨fun _ => ⟨fun hin => hin.2 rfl, fun a ha => absurd ha.length (by simp)⟩, fun h => ?_⟩, trivial⟩
      exact absurd h change_ne_add.symm
    · trivial
  · show replay (replayOne s.keys (name, NR_REG_CB_ACTION_DELETE)) _ = _
    rw [replayOne_delete]
    ext n
    split
    · rename_i hroot
      subst hroot
      show n ∈ replayOne _ ([], NR_REG_CB_ACTION_ADD) ↔ _
      have hall : covers [] n = true := rfl
      rw [replayOne_add]
      by_cases hn : n = [] <;> simp [Reg.keys, hmap, hn, hall]
    · rename_i hroot
      by_cases hc : covers name n = true <;> simp [replay, Reg.keys, hmap, hroot, hc]

/-- Every call that returns 0 tells the observer what it does. -/
theorem step_tells (h : RInv s) (ht : Tree s.map) {op : RegOp} (hst : regStep beh s op = some (.ok, s')) :
    ∃ new, Tells s op s' new := by
  cases op with
  | set name arg =>
    have hs : Safe s (.set name arg) := safe_of_ok h hst
    rcases set_cases h hs hst with ⟨hne, -⟩ | ⟨p, node, hp, hn, htype, -, -, hmap, hev⟩ | ⟨hp, -, hpf, -, -, hc⟩
    · exact absurd rfl hne
    · exact ⟨_, .overwritten (by simp [Reg.map, hp, hn]) htype hmap hev⟩
    · exact ⟨_, .created ht hp hpf hc arg⟩
  | del name =>
    by_cases hv : nr_reg_is_valid name = .ok
    · obtain ⟨-, -, hmap, hev⟩ := del_spec h hv hst
      exact ⟨_, .deleted hmap hev⟩
    · rw [regStep, del_bad_name hv] at hst
      cases hst
  | callbacks op =>
    obtain ⟨⟨r, cbs⟩, -, hx⟩ := Option.map_eq_some_iff.1 hst
    cases hx
    exact ⟨[], by simp, trivial, rfl, fun n a w hop => by cases hop⟩

/-! ## Runs -/

/-- What a call after the run tells the observer: its events continue a legal
stream, missing ancestors are added before the name, and a setter on a stored
name raises one `CHANGE` or nothing. -/
structure Observed (s : Reg) (op : RegOp) (s' : Reg) (new : List (Bytes × UInt8)) : Prop extends Tells s op s' new where
  order : ∀ pre n post, new = pre ++ (n, NR_REG_CB_ACTION_ADD) :: post →
    ∀ a, Ancestor a n → s.map a = none → (a, NR_REG_CB_ACTION_ADD) ∈ pre

/-- After every run of calls that all return 0, replaying the events since
`nr_reg_local_init` from the root alone gives the stored names. -/
theorem events_rebuild_keys {s₀ : Reg} (hi : nr_reg_local_init beh = some (.ok, s₀)) {evs : List (RegOp × Status)}
    (hrun : Run (regStep beh) (fun _ _ => True) s₀ evs s) (hok : ∀ e ∈ evs, e.2 = .ok) :
    (∃ log, s.events = s₀.events ++ log ∧ Legal {[]} log ∧ replay {[]} log = s.keys) ∧
      ∀ op s', regStep beh s op = some (.ok, s') → ∃ new, Observed s op s' new := by
  have hsafe : ∀ {evs s}, Run (regStep beh) (fun _ _ => True) s₀ evs s → (∀ e ∈ evs, e.2 = .ok) →
      RInv s ∧ Tree s.map := fun hr ho =>
    have hreach : Reaches beh Safe _ _ := Reaches.safe ⟨s₀, hi, hr⟩ ho
    ⟨hreach.rinv, hreach.tree⟩
  constructor
  · induction hrun with
    | nil =>
      refine ⟨[], by simp, trivial, ?_⟩
      obtain ⟨-, hmap, -⟩ := init_spec hi
      ext n
      by_cases hn : n = [] <;> simp [replay, Reg.keys, hmap, hn]
    | @snoc evs s op r s' hr _ hst ih =>
      obtain rfl : r = .ok := hok (op, r) (by simp)
      have ho : ∀ e ∈ evs, e.2 = .ok := fun e he => hok e (by simp [he])
      obtain ⟨log, hev, hlegal, hkeys⟩ := ih ho
      obtain ⟨new, htell⟩ := step_tells (hsafe hr ho).1 (hsafe hr ho).2 hst
      refine ⟨log ++ new, ?_, ?_, ?_⟩
      · rw [htell.events, hev, List.append_assoc]
      · rw [legal_append, hkeys]
        exact ⟨hlegal, htell.legal⟩
      · rw [replay_append, hkeys, htell.keys]
  · intro op s' hst
    obtain ⟨new, htell⟩ := step_tells (hsafe hrun hok).1 (hsafe hrun hok).2 hst
    refine ⟨new, htell, fun pre n post hnew a ha hnone => ?_⟩
    have hlegal := htell.legal
    rw [hnew] at hlegal
    exact legal_order hlegal ha (by simp [Reg.keys, hnone])

/-- Two levels created, the value changed, and the root deleted. -/
theorem events_rebuild_keys_root_deleted :
    ∃ s₀ s log, nr_reg_local_init (fun _ => 0) = some (.ok, s₀) ∧
      Run (regStep fun _ => 0) (fun _ _ => True) s₀ [(.set (str "a.b") (.bytes [1]), .ok),
        (.set (str "a.b") (.bytes [2]), .ok), (.del [], .ok)] s ∧
      s.events = s₀.events ++ log ∧ Legal {[]} log ∧ replay {[]} log = s.keys := by
  have hex : (trace (fun _ => 0) (fun _ _ => true) [.set (str "a.b") (.bytes [1]), .set (str "a.b") (.bytes [2]),
      .del []]).any (·.1 = [.ok, .ok, .ok]) = true := by decide +kernel
  obtain ⟨⟨rs, s⟩, htr, hx⟩ := (Option.any_eq_true _ _).1 hex
  obtain rfl : rs = [.ok, .ok, .ok] := by simpa using hx
  obtain ⟨s₀, hi, hrun⟩ := trace_reaches htr
  have hrun : Run (regStep fun _ => 0) (fun _ _ => True) s₀ _ s := hrun.mono fun _ _ _ => trivial
  obtain ⟨⟨log, hlog⟩, -⟩ := events_rebuild_keys hi hrun (by simp)
  exact ⟨s₀, s, log, hi, hrun, hlog⟩

end Nrappkit.Registry
