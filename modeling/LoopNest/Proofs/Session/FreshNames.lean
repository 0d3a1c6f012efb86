import LoopNest.Proofs.Number.Numeral
import LoopNest.Proofs.Session.Tables

/-!
# Fresh names

A compilation takes its name from a counter that all registries have in common.  It draws numbers
until one has a name that is free in its own registry.  A caller may have taken any names before,
also such as the counter makes, but only finitely many, and different numbers make different names:
so the drawing ends.

The counter stands behind the last number that was drawn and never goes back, whoever draws and
whether the compilation succeeds or not.  So numbers are handed out in ascending order.

* `Draws`: the drawing as a loop, which goes on as long as the name is taken.
* `Session.draws_nextNumber`: it ends with the number that a session hands out.
* `Session.numbers`: the numbers that requests take.
* `Session.names_fresh`: they ascend, their names are free, and no compilation is refused for its
  name.
-/

namespace LoopNest

theorem numberedName_injective : Function.Injective numberedName := by
  intro m n h
  have htext := congrArg String.toList h
  rw [numberedName, numberedName, String.toList_append, String.toList_append] at htext
  rw [← Number.ofDigitChars_toString m, List.append_cancel_left htext, Number.ofDigitChars_toString]

/-! ## Drawing numbers -/

/-- Drawing from a counter ends with a number: the first one whose name is free. -/
inductive Draws (r : Registry) : Nat → Nat → Prop where
  | free {counter : Nat} (h : r.contains (numberedName counter) = false) : Draws r counter counter
  | skip {counter number : Nat} (h : r.contains (numberedName counter) = true)
      (rest : Draws r (counter + 1) number) : Draws r counter number

namespace Draws

variable {r : Registry} {counter number : Nat}

theorem le (h : Draws r counter number) : counter ≤ number := by
  induction h with
  | free => exact le_rfl
  | skip _ _ ih => exact (Nat.le_succ _).trans ih

theorem isFree (h : Draws r counter number) : r.contains (numberedName number) = false := by
  induction h with
  | free h => exact h
  | skip _ _ ih => exact ih

theorem unique (h : Draws r counter number) {number' : Nat} (h' : Draws r counter number') :
    number' = number := by
  induction h with
  | free hfree =>
    cases h' with
    | free => rfl
    | skip htaken => cases hfree.symm.trans htaken
  | skip htaken _ ih =>
    cases h' with
    | free hfree => cases hfree.symm.trans htaken
    | skip _ rest => exact ih rest

/-- The numbers before the first free one are skipped. -/
theorem of_first (hle : counter ≤ number) (hfree : r.contains (numberedName number) = false)
    (htaken : ∀ m, counter ≤ m → m < number → r.contains (numberedName m) = true) :
    Draws r counter number := by
  induction hle using Nat.decreasingInduction with
  | self => exact .free hfree
  | of_succ m hm ih =>
    exact .skip (htaken m le_rfl hm)
      (ih fun m' hle hlt => htaken m' ((Nat.le_succ _).trans hle) hlt)

end Draws

/-- Among one more numbers than there are names, one is free. -/
theorem exists_notMem_numberedName (taken : List String) (start : Nat) :
    ∃ n, start ≤ n ∧ n < start + (taken.length + 1) ∧ numberedName n ∉ taken := by
  by_contra hnone
  push Not at hnone
  have hsubset : ∀ x ∈ (List.range' start (taken.length + 1)).map numberedName, x ∈ taken := by
    intro x hx
    obtain ⟨n, hn, rfl⟩ := List.mem_map.mp hx
    rw [List.mem_range'_1] at hn
    exact hnone n hn.1 hn.2
  have hnodup : ((List.range' start (taken.length + 1)).map numberedName).Nodup :=
    (List.nodup_range' 1).map numberedName_injective
  have hlength := (hnodup.subperm hsubset).length_le
  rw [List.length_map, List.length_range'] at hlength
  omega

/-- The search finds the first free number. -/
theorem firstFree_spec (taken : List String) (start : Nat) :
    start ≤ firstFree taken start ∧ numberedName (firstFree taken start) ∉ taken ∧
      ∀ m, start ≤ m → m < firstFree taken start → numberedName m ∈ taken := by
  unfold firstFree
  cases hfind : (List.range' start (taken.length + 1)).find? fun n =>
    !taken.contains (numberedName n) with
  | none =>
    obtain ⟨n, hle, hlt, hn⟩ := exists_notMem_numberedName taken start
    rw [List.find?_range'_eq_none] at hfind
    simpa [hn] using hfind n hle hlt
  | some n =>
    rw [List.find?_range'_eq_some] at hfind
    obtain ⟨hfree, hmem, hbefore⟩ := hfind
    rw [Option.getD_some]
    refine ⟨(List.mem_range'_1.mp hmem).1, by simpa using hfree, fun m hle hlt => ?_⟩
    simpa using hbefore m hle hlt

namespace Session

variable {ι : Type} {s : Session ι}

/-- Drawing ends, with the number that the session hands out. -/
theorem draws_nextNumber (s : Session ι) (i : ι) :
    Draws (s.registry i) s.counter (s.nextNumber i) := by
  obtain ⟨hle, hfree, htaken⟩ := firstFree_spec (s.registry i).handles.names s.counter
  refine .of_first hle ?_ fun m hm hlt => ?_
  · rw [Registry.contains, ← Bool.not_eq_true, NameMap.contains_iff_mem_names]
    exact hfree
  · rw [Registry.contains, NameMap.contains_iff_mem_names]
    exact htaken m hm hlt

/-! ## The counter -/

/-- The number that a request takes.  It takes one if it compiles a kernel that is there. -/
def number? (s : Session ι) : Request ι → Option Nat
  | .run desk index | .lower desk index | .compile desk index =>
      (s.kernel? index).map fun _ => s.nextNumber desk.registry
  | _ => none

theorem counter_run (desk : Desk ι) (index : Nat) (s : Session ι) :
    (ended ((run desk index).run s)).counter
      = ((s.kernel? index).map fun _ => s.nextNumber desk.registry).elim s.counter (· + 1) := by
  cases hkernel : s.kernel? index with
  | none => rw [run_of_absent desk hkernel]; rfl
  | some kernel =>
    rw [run_of_present desk hkernel]
    cases (AnyKernel.compile desk.inPlace).run kernel <;> rfl

theorem counter_inWorld (invocation : Invocation Value) (s : Session ι) :
    (ended ((inWorld invocation).run s)).counter = s.counter := by
  rw [inWorld_run]
  cases invocation.run s.world <;> rfl

theorem counter_call (index : Nat) (inputs : NameMap Value) (s : Session ι) :
    (ended ((call index inputs).run s)).counter = s.counter := by
  rw [call, run_get_bind]
  cases s.handles[index]? with
  | none => rfl
  | some entry => exact counter_inWorld (entry.2.call (s.registry entry.1) inputs) s

variable [DecidableEq ι]

theorem counter_register (i : ι) (name : String) (parameters : List String) (body : Expr)
    (s : Session ι) :
    (ended ((register i name parameters body).run s)).counter = s.counter := by
  rw [register_run]
  split <;> rfl

theorem counter_compile (desk : Desk ι) (index : Nat) (s : Session ι) :
    (ended ((compile desk index).run s)).counter
      = ((s.kernel? index).map fun _ => s.nextNumber desk.registry).elim s.counter (· + 1) := by
  cases hkernel : s.kernel? index with
  | none => rw [compile_of_absent desk hkernel]; rfl
  | some kernel =>
    rw [compile_of_present desk hkernel]
    split
    · rfl
    · split <;> rfl

/-- The counter moves behind the number that a request takes, and stays if it takes none. -/
theorem counter_next (s : Session ι) (request : Request ι) :
    (s.next request).counter = (s.number? request).elim s.counter (· + 1) := by
  unfold next
  cases request with
  | run desk index =>
    rw [perform, ended_bind fun _ _ => rfl]
    exact counter_run desk index s
  | lower desk index =>
    rw [perform, ended_bind fun _ _ => rfl, lower, ended_bind fun _ _ => rfl]
    exact counter_run desk index s
  | compile desk index =>
    rw [perform, ended_bind fun _ _ => rfl]
    exact counter_compile desk index s
  | register i name parameters body =>
    rw [perform, ended_bind fun _ _ => rfl]
    exact counter_register i name parameters body s
  | invoke i name inputs =>
    rw [perform, ended_bind fun _ _ => rfl]
    exact counter_inWorld ((s.registry i).invoke name inputs) s
  | call index inputs =>
    rw [perform, ended_bind fun _ _ => rfl]
    exact counter_call index inputs s
  | edit index kernel => rfl

omit [DecidableEq ι] in
theorem counter_le_of_number? {request : Request ι} {n : Nat} (h : s.number? request = some n) :
    s.counter ≤ n := by
  have hle : ∀ (desk : Desk ι) (index : Nat),
      (s.kernel? index).map (fun _ => s.nextNumber desk.registry) = some n → s.counter ≤ n := by
    intro desk index h
    obtain ⟨kernel, -, rfl⟩ := Option.map_eq_some_iff.mp h
    exact (s.draws_nextNumber desk.registry).le
  cases request with
  | run desk index => exact hle desk index h
  | lower desk index => exact hle desk index h
  | compile desk index => exact hle desk index h
  | _ => cases h

/-! ## The numbers of a session -/

/-- The numbers that requests take, in order. -/
def numbers (s : Session ι) : List (Request ι) → List Nat
  | [] => []
  | request :: requests => (s.number? request).toList ++ (s.next request).numbers requests

theorem counter_le_next (s : Session ι) (request : Request ι) :
    s.counter ≤ (s.next request).counter := by
  rw [counter_next]
  cases hnumber : s.number? request with
  | none => exact le_rfl
  | some n => exact (counter_le_of_number? hnumber).trans (Nat.le_succ n)

theorem counter_le_of_mem_numbers {requests : List (Request ι)} {n : Nat}
    (h : n ∈ s.numbers requests) :
    s.counter ≤ n := by
  induction requests generalizing s with
  | nil => cases h
  | cons request requests ih =>
    rcases List.mem_append.mp h with h | h
    · exact counter_le_of_number? (Option.mem_toList.mp h)
    · exact (counter_le_next s request).trans (ih h)

/-- Numbers are handed out in ascending order. -/
theorem pairwise_numbers (s : Session ι) (requests : List (Request ι)) :
    (s.numbers requests).Pairwise (· < ·) := by
  induction requests generalizing s with
  | nil => exact .nil
  | cons request requests ih =>
    rw [numbers]
    cases hnumber : s.number? request with
    | none => exact ih (s.next request)
    | some n =>
      refine List.pairwise_cons.mpr ⟨fun m hm => ?_, ih (s.next request)⟩
      have hle := counter_le_of_mem_numbers hm
      rw [counter_next, hnumber] at hle
      exact hle

/-! ## The names of a session -/

omit [DecidableEq ι] in
theorem name_of_run {desk : Desk ι} {index : Nat} {name : String} {c : Compilation} {s' : Session ι}
    (h : (run desk index).run s = .ok (name, c) s') :
    ∃ kernel, s.kernel? index = some kernel ∧ name = numberedName (s.nextNumber desk.registry) := by
  cases hkernel : s.kernel? index with
  | none =>
    rw [run_of_absent desk hkernel] at h
    cases h
  | some kernel =>
    rw [run_of_present desk hkernel] at h
    split at h <;> cases h
    exact ⟨kernel, rfl, rfl⟩

theorem name_of_compile {desk : Desk ι} {index : Nat} {h : Handle} {s' : Session ι}
    (hok : (compile desk index).run s = .ok h s') :
    ∃ kernel, s.kernel? index = some kernel ∧
      h.name = numberedName (s.nextNumber desk.registry) := by
  obtain ⟨⟨name, c⟩, s₁, hrun, hregister⟩ := run_bind_eq_ok_iff.mp hok
  obtain ⟨kernel, hkernel, rfl⟩ := name_of_run hrun
  refine ⟨kernel, hkernel, ?_⟩
  rw [register_run] at hregister
  split at hregister
  · cases hregister
  · next hentry =>
    cases hregister
    obtain ⟨-, source, program, -, -, -, rfl, -⟩ := Registry.register_eq_ok_iff.mp hentry
    rfl

/-- No compilation is refused because its name is taken. -/
theorem compile_ne_taken (desk : Desk ι) (index : Nat) (x : String) (s s' : Session ι) :
    (compile desk index).run s ≠ .error (.register (.taken x)) s' := by
  intro herror
  cases hkernel : s.kernel? index with
  | none =>
    rw [compile_of_absent desk hkernel] at herror
    cases herror
  | some kernel =>
    rw [compile_of_present desk hkernel] at herror
    split at herror
    · cases herror
    · split at herror
      · next htaken =>
        cases herror
        exact Registry.register_ne_taken (s.draws_nextNumber desk.registry).isFree x htaken
      · cases herror

/-- **Names are fresh**, whatever names callers have taken and whichever registries are in use.
Drawing a number ends, and its name is free in the registry that it is drawn for; numbers are handed
out in ascending order, also to compilations that fail; they are the numbers in the names; and no
compilation is refused for its name. -/
theorem names_fresh (s : Session ι) :
    (∀ i, ∃ n, Draws (s.registry i) s.counter n ∧ (s.registry i).contains (numberedName n) = false ∧
      (freshName i).run s = .ok (numberedName n) { s with counter := n + 1 }) ∧
    (∀ requests, (s.numbers requests).Pairwise (· < ·)) ∧
    (∀ request, (s.next request).counter = (s.number? request).elim s.counter (· + 1)) ∧
    (∀ desk index name c s', (perform (.run desk index)).run s = .ok (.compilation name c) s' →
      ∃ n, s.number? (.run desk index) = some n ∧ name = numberedName n ∧
        (s.registry desk.registry).contains name = false) ∧
    (∀ desk index h s', (perform (.compile desk index)).run s = .ok (.handle h) s' →
      ∃ n, s.number? (.compile desk index) = some n ∧ h.name = numberedName n ∧
        (s.registry desk.registry).contains h.name = false) ∧
    ∀ desk index x s', (perform (.compile desk index)).run s
      ≠ .error (.register (.taken x)) s' := by
  refine ⟨fun i => ?_, s.pairwise_numbers, s.counter_next, ?_, ?_, ?_⟩
  · have hdraws := s.draws_nextNumber i
    exact ⟨s.nextNumber i, hdraws, hdraws.isFree, rfl⟩
  · intro desk index name c s' hok
    obtain ⟨⟨name', c'⟩, s₁, hrun, hpure⟩ := run_bind_eq_ok_iff.mp hok
    cases hpure
    obtain ⟨kernel, hkernel, rfl⟩ := name_of_run hrun
    exact ⟨_, congrArg (Option.map _) hkernel, rfl, (s.draws_nextNumber desk.registry).isFree⟩
  · intro desk index h s' hok
    obtain ⟨h', s₁, hcompile, hpure⟩ := run_bind_eq_ok_iff.mp hok
    cases hpure
    obtain ⟨kernel, hkernel, hname⟩ := name_of_compile hcompile
    refine ⟨_, congrArg (Option.map _) hkernel, hname, ?_⟩
    rw [hname]
    exact (s.draws_nextNumber desk.registry).isFree
  · intro desk index x s' herror
    exact compile_ne_taken desk index x s s' (run_bind_pure_eq_error_iff.mp herror)

/-- A session in which a caller has taken the name of the next number. -/
def crowded : Session Unit :=
  { start [] fun _ => .empty with
    registry := fun _ => (Registry.empty .empty).entered
      ⟨"loopkernel_1", [], "def loopkernel_1():\n    return 1\n"⟩
      ⟨"loopkernel_1", [], [], .literal (.int 1)⟩ }

/-- The name that is taken is skipped, and the counter moves behind the number after it. -/
theorem names_fresh_crowded :
    (freshName ()).run crowded = .ok "loopkernel_2" { crowded with counter := 3 } := by
  obtain ⟨n, hdraws, -, hname⟩ := crowded.names_fresh.1 ()
  have htwo : Draws (crowded.registry ()) crowded.counter 2 := .skip (by decide) (.free (by decide))
  obtain rfl : n = 2 := htwo.unique hdraws
  exact hname

end Session
end LoopNest
