import LoopNest.Proofs.Schedule.Conserved
import LoopNest.Proofs.Schedule.Recompile

/-!
# What a kernel is made of lasts

A compilation in place rewrites member lists twice.  Writing the analysis into the kernel adds own
items to them, which are there anyway.  Attaching is more delicate: it replaces the lists of the
loops that it finishes by their rewritten bodies, from which members are gone that were there
before, and if it fails on a cycle, the lists of the other loops stay as they are.  So the kernel
that is left can have old and new lists side by side.

## Why nothing is lost in between

A loop is finished only after all loops in its body (`Nester.Sealed`), so from a finished loop the
new lists lead to finished loops only.  A member that is gone from the list of a finished loop is
still inside the loop by the rewritten bodies, and the way to it goes through finished loops, whose
lists are just these bodies.  A loop that is not finished has the list it had.

* `Nester.attach_sealed`: the finished loops, whether attaching succeeds or not.
* `Nester.Sealed.mem_reachable_adopt_iff`: old and new lists side by side.
* `recompiled_parameters_stable`: any number of compilations in place.
-/

namespace LoopNest

/-- A run ends in a state with a property and, if it succeeds, with a value that fits the state. -/
inductive Ends {ε σ α : Type} (Q : α → σ → Prop) (R : σ → Prop) : EStateM.Result ε σ α → Prop where
  | ok {a : α} {s : σ} (hvalue : Q a s) (hstate : R s) : Ends Q R (.ok a s)
  | error (e : ε) {s : σ} (hstate : R s) : Ends Q R (.error e s)

/-- A run goes on from where its first part ends. -/
theorem Ends.bind {ε σ α β : Type} {Q : α → σ → Prop} {Q' : β → σ → Prop} {R : σ → Prop}
    {x : EStateM ε σ α} {f : α → EStateM ε σ β} {s : σ} (h : Ends Q R (x.run s))
    (hnext : ∀ a t, Q a t → R t → Ends Q' R ((f a).run t)) : Ends Q' R ((x >>= f).run s) := by
  rw [EStateM.run_bind]
  cases hx : x.run s with
  | ok a t =>
    rw [hx] at h
    cases h with
    | ok hvalue hstate => exact hnext a t hvalue hstate
  | error e t =>
    rw [hx] at h
    cases h with
    | error _ hstate => exact .error e hstate

variable {m n : Nat}

namespace Nester

variable {s : Nester m n} {k : Kernel m n} {own : Fin n → Prop} {fin : List (Finished m n)}

/-! ## The finished loops -/

/-- The finished loops were built from their bodies, and the loops in their bodies are finished. -/
structure Sealed (s : Nester m n) (k : Kernel m n) (own : Fin n → Prop)
    (fin : List (Finished m n)) : Prop where
  own : ∀ f ∈ fin, own f.loop
  name : ∀ f ∈ fin, f.name = (k.loop f.loop).head.name
  members : ∀ f ∈ fin, f.members = s.body k f.loop
  closed : ∀ f ∈ fin, ∀ e, .loop e ∈ s.body k f.loop → ∃ g ∈ fin, g.loop = e

theorem Sealed.nil (s : Nester m n) (k : Kernel m n) (own : Fin n → Prop) : Sealed s k own [] :=
  ⟨by simp, by simp, by simp, by simp⟩

/-- A loop is entered after the loops in its body. -/
theorem Sealed.snoc (h : Sealed s k own fin) {l : Fin n} (hl : own l)
    {members : List (Ref m n × Nest)} (hmembers : members.map Prod.fst = s.body k l)
    (hbody : ∀ e, .loop e ∈ s.body k l → ∃ g ∈ fin, g.loop = e) :
    Sealed s k own (fin ++ [finish k l members]) := by
  have hall : ∀ {P : Finished m n → Prop}, (∀ f ∈ fin, P f) → P (finish k l members) →
      ∀ f ∈ fin ++ [finish k l members], P f := by
    intro P hfin hlast f hf
    rcases List.mem_append.mp hf with hf | hf
    · exact hfin f hf
    · rwa [List.mem_singleton.mp hf]
  have hstill : ∀ e, (∃ g ∈ fin, g.loop = e) → ∃ g ∈ fin ++ [finish k l members], g.loop = e := by
    rintro e ⟨g, hg, he⟩
    exact ⟨g, List.mem_append_left _ hg, he⟩
  exact ⟨hall h.own hl, hall h.name rfl, hall h.members hmembers,
    hall (fun f hf e he => hstill e (h.closed f hf e he)) fun e he => hstill e (hbody e he)⟩

/-- The pairs stand for the items, the loops finished before are still there, and those among the
items are finished. -/
structure Attached (items : List (Ref m n)) (fin : List (Finished m n))
    (pairs : List (Ref m n × Nest)) (fin' : List (Finished m n)) : Prop where
  fst : pairs.map Prod.fst = items
  kept : fin ⊆ fin'
  done : ∀ l, .loop l ∈ items → ∃ f ∈ fin', f.loop = l

theorem Attached.cons {items : List (Ref m n)} {fin₁ fin' : List (Finished m n)}
    {pairs : List (Ref m n × Nest)} (h : Attached items fin₁ pairs fin') (hkept : fin ⊆ fin₁)
    (first : Ref m n × Nest) (hfirst : ∀ l, first.1 = .loop l → ∃ f ∈ fin₁, f.loop = l) :
    Attached (first.1 :: items) fin (first :: pairs) fin' where
  fst := by rw [List.map_cons, h.fst]
  kept := fun f hf => h.kept (hkept hf)
  done := by
    intro l hl
    rcases List.mem_cons.mp hl with hl | hl
    · obtain ⟨f, hf, hloop⟩ := hfirst l hl.symm
      exact ⟨f, h.kept hf, hloop⟩
    · exact h.done l hl

/-- **Attaching finishes loops from the inside**, and what it has finished when it fails was
finished properly. -/
theorem attach_sealed (hs : s.Separated k own) (active : List String) (items : List (Ref m n))
    (hitems : ∀ l, .loop l ∈ items → own l) (hfin : Sealed s k own fin) :
    Ends (Attached items fin) (Sealed s k own) ((s.attach k active items).run fin) := by
  induction active, items using attach.induct s k generalizing fin with
  | case1 active =>
    rw [attach]
    exact .ok ⟨rfl, fun _ h => h, by simp⟩ hfin
  | case2 active i items ih =>
    rw [attach]
    refine (ih (fun l hl => hitems l (List.mem_cons_of_mem _ hl)) hfin).bind
      fun rest fin' hrest hfin' => ?_
    exact .ok (hrest.cons (fun _ h => h) (.instruction i, .instruction (k.instruction i)) (by simp))
      hfin'
  | case3 active l items hactive =>
    rw [attach, dif_pos hactive]
    exact .error _ hfin
  | case4 active l items hactive ih ihbody =>
    have hl : own l := hitems l List.mem_cons_self
    -- once the loop is finished, the items behind it remain
    have hrest : ∀ {fin₁ : List (Finished m n)} {nest : Nest}, Sealed s k own fin₁ → fin ⊆ fin₁ →
        (∃ f ∈ fin₁, f.loop = l) → Ends (Attached (.loop l :: items) fin) (Sealed s k own)
          ((s.attach k active items >>= fun rest => pure ((.loop l, nest) :: rest)).run fin₁) := by
      intro fin₁ nest hfin₁ hkept hdone
      refine (ih (fun l hl => hitems l (List.mem_cons_of_mem _ hl)) hfin₁).bind
        fun rest fin' hrest hfin' => ?_
      refine .ok (hrest.cons hkept (.loop l, nest) fun e he => ?_) hfin'
      cases he
      exact hdone
    rw [attach, dif_neg hactive, run_get_bind]
    cases hseen : finished? fin (k.loop l).head.name with
    | some f =>
      obtain ⟨hmem, hname⟩ := finished?_eq_some hseen
      have hloop : f.loop = l :=
        hs.inj _ _ (hfin.own f hmem) hl ((hfin.name f hmem).symm.trans hname)
      subst hloop
      rw [finished?] at hseen
      rw [hseen]
      exact hrest hfin (fun _ h => h) ⟨f, hmem, rfl⟩
    | none =>
      rw [finished?] at hseen
      rw [hseen]
      refine (ihbody (hs.closed l hl) hfin).bind fun members fin₁ hmembers hfin₁ => ?_
      exact hrest (hfin₁.snoc hl hmembers.fst hmembers.done)
        (fun f hf => List.mem_append_left _ (hmembers.kept hf))
        ⟨finish k l members, List.mem_append_right _ List.mem_cons_self, rfl⟩

/-! ## Old and new lists side by side -/

/-- A finished loop has its rewritten body, and any other loop the list it had. -/
theorem Sealed.members_adopt (h : Sealed s k own fin) (l : Fin n) :
    ((k.adopt fin).loop l).members
      = if l ∈ fin.map Finished.loop then s.body k l else (k.loop l).members := by
  have hfold : ∀ (fin : List (Finished m n)) (k₀ : Kernel m n),
      (∀ f ∈ fin, f.members = s.body k f.loop) →
      ((k₀.adopt fin).loop l).members
        = if l ∈ fin.map Finished.loop then s.body k l else (k₀.loop l).members := by
    intro fin
    induction fin with
    | nil => intro k₀ _; simp [Kernel.adopt]
    | cons f fin ih =>
      intro k₀ hmembers
      rw [Kernel.adopt, List.foldl_cons, ← Kernel.adopt,
        ih _ fun g hg => hmembers g (List.mem_cons_of_mem _ hg), Kernel.members_setMembers,
        hmembers f List.mem_cons_self]
      by_cases hl : l = f.loop
      · simp [hl]
      · simp [hl]
  exact hfold fin k h.members

/-- From a finished loop the new lists lead wherever the rewritten bodies do. -/
theorem Sealed.mem_reachable_of_holds (h : Sealed s k own fin) {f : Finished m n} (hf : f ∈ fin)
    (hreach : .loop f.loop ∈ (k.adopt fin).reachable) {t : Ref m n}
    (hway : Relation.TransGen (s.Holds k) (.loop f.loop) t) :
    t ∈ (k.adopt fin).reachable ∧ ∀ e, t = .loop e → ∃ g ∈ fin, g.loop = e := by
  have hstep : ∀ g ∈ fin, .loop g.loop ∈ (k.adopt fin).reachable → ∀ t ∈ s.body k g.loop,
      t ∈ (k.adopt fin).reachable ∧ ∀ e, t = .loop e → ∃ g ∈ fin, g.loop = e := by
    intro g hg hgreach t ht
    refine ⟨Kernel.mem_reachable_of_mem_members hgreach ?_, ?_⟩
    · rw [Kernel.members, h.members_adopt, if_pos (List.mem_map_of_mem hg)]
      exact ht
    · rintro e rfl
      exact h.closed g hg e ht
  induction hway with
  | single hhold =>
    obtain ⟨l, hl, ht⟩ := hhold
    cases hl
    exact hstep f hf hreach _ ht
  | tail _ hhold ih =>
    obtain ⟨l, rfl, ht⟩ := hhold
    obtain ⟨hlreach, hfinished⟩ := ih
    obtain ⟨g, hg, rfl⟩ := hfinished l rfl
    exact hstep g hg hlreach _ ht

/-- **Old and new lists side by side** make up the same kernel, where every member of a loop is
still inside the loop by the rewritten bodies. -/
theorem Sealed.mem_reachable_adopt_iff (h : Sealed s k own fin)
    (hwithin : s.Within k (· ∈ k.reachable))
    (hkept : ∀ l, .loop l ∈ k.reachable → ∀ t ∈ (k.loop l).members,
      Relation.TransGen (s.Holds k) (.loop l) t) {r : Ref m n} :
    r ∈ (k.adopt fin).reachable ↔ r ∈ k.reachable := by
  have hitems : (k.adopt fin).items = k.items := (Kernel.adopt_alike k fin).1.items
  constructor
  · refine Kernel.reachable_subset (fun t ht u hu => ?_) (fun t ht => ?_) r
    · cases t with
      | instruction i => exact absurd hu List.not_mem_nil
      | loop l =>
        rw [Kernel.members, h.members_adopt] at hu
        split at hu
        · exact hwithin l ht u hu
        · exact Kernel.mem_reachable_of_mem_members ht hu
    · exact Kernel.mem_reachable_of_mem_items (hitems ▸ ht)
  · have hboth : ∀ t ∈ k.reachable, t ∈ k.reachable ∧ t ∈ (k.adopt fin).reachable := by
      refine Kernel.reachable_subset (fun t ht u hu => ?_) fun t ht => ?_
      · refine ⟨Kernel.mem_reachable_of_mem_members ht.1 hu, ?_⟩
        cases t with
        | instruction i => exact absurd hu List.not_mem_nil
        | loop l =>
          by_cases hl : l ∈ fin.map Finished.loop
          · obtain ⟨f, hf, rfl⟩ := List.mem_map.mp hl
            exact (h.mem_reachable_of_holds hf ht.2 (hkept _ ht.1 u hu)).1
          · refine Kernel.mem_reachable_of_mem_members ht.2 ?_
            rw [Kernel.members, h.members_adopt, if_neg hl]
            exact hu
      · exact ⟨Kernel.mem_reachable_of_mem_items ht,
          Kernel.mem_reachable_of_mem_items (hitems.symm ▸ ht)⟩
    exact fun hr => (hboth r hr).2

end Nester

/-! ## One run after the other -/

namespace Kernel

variable {k k₁ : Kernel m n} {layer : Layer m n}

theorem Alike.separate (h : k.Alike k₁) (hreach : ∀ r, r ∈ k₁.reachable ↔ r ∈ k.reachable)
    (hk : k.Separate) : k₁.Separate := by
  intro r hr t ht heq
  rw [h.name, h.name] at heq
  exact hk r ((hreach r).mp hr) t ((hreach t).mp ht) heq

end Kernel

namespace Layer.Committed

open Kernel

variable {k k₁ : Kernel m n} {layer : Layer m n} (h : layer.Committed k k₁)

include h

/-- A layer lists for the kernel it was written into what is there. -/
theorem listed_eq (l : Fin n) : k₁.listed layer l = (k₁.loop l).members := by
  rw [Kernel.listed_eq, h.alike.loops, h.alike.loop_name, h.members, Kernel.listed_eq]
  split <;> rfl

theorem filled_eq : k₁.filled layer = k₁ := by
  have htable : ∀ l, (k₁.filled layer).loop l = k₁.loop l := fun l => by
    rw [loop_filled, h.listed_eq]
  have hsame : (k₁.filled layer).loopTable = k₁.loopTable :=
    Vector.ext fun l hl => htable ⟨l, hl⟩
  exact congrArg (fun table => { k₁ with loopTable := table }) hsame

theorem covers (hcovers : layer.Covers k) : layer.Covers k₁ where
  deps r hr := by
    rw [h.alike.name]
    exact hcovers.deps r (h.alike.items ▸ hr)
  members l hl := by
    rw [h.alike.loop_name]
    exact hcovers.members l (h.alike.loops ▸ hl)

/-- The stages behind the analysis leave a kernel that is made of the same items, however far they
come. -/
theorem mem_reachable_left_iff (hk : k₁.Distinct) (hseparate : k₁.Separate)
    (hcovers : layer.Covers k) {r : Ref m n} :
    r ∈ (left (k₁.scheduled layer true)).reachable ↔ r ∈ k₁.reachable := by
  rw [Kernel.scheduled]
  cases harrange : k₁.arrange layer with
  | error e => exact .rfl
  | ok a =>
    obtain ⟨order, start, top, final⟩ := a
    obtain ⟨⟨g, hg, rfl⟩, hstart, hnest⟩ := Kernel.arrange_eq_ok_iff.mp harrange
    obtain ⟨start', top', final', hstart', hnest', houtcome⟩ := Nester.exists_outcome hk
      (h.filled_eq.symm ▸ hseparate) (h.covers hcovers) hg
    cases hstart.symm.trans hstart'
    cases hnest.symm.trans hnest'
    have hwithin := houtcome.within
    have hinj := houtcome.name_inj
    have hroots := houtcome.mem_reachable_of_mem_top
    have hlists := fun l t => houtcome.transGen_of_lists (r := .loop l) (t := t)
    rw [h.filled_eq] at hwithin hinj hroots hlists
    have hseparated : final.Separated k₁ fun l => .loop l ∈ k₁.reachable := by
      refine ⟨fun l hl e he => hwithin l hl _ he, fun l e hl he heq => ?_⟩
      cases hinj (.loop l) hl (.loop e) he heq
      rfl
    have hkept : ∀ l, .loop l ∈ k₁.reachable → ∀ t ∈ (k₁.loop l).members,
        Relation.TransGen (final.Holds k₁) (.loop l) t := by
      intro l hl t ht
      exact hlists l t hl ⟨l, rfl, (h.listed_eq l).symm ▸ ht⟩
    have hends := Nester.attach_sealed hseparated [] top (fun l hl => hroots _ hl) (.nil final k₁ _)
    simp only
    cases hrun : (final.attach k₁ [] top).run [] with
    | ok pairs fin =>
      rw [hrun] at hends
      cases hends with
      | ok _ hsealed => exact hsealed.mem_reachable_adopt_iff hwithin hkept
    | error e fin =>
      rw [hrun] at hends
      cases hends with
      | error _ hsealed => exact hsealed.mem_reachable_adopt_iff hwithin hkept

end Layer.Committed

namespace Kernel

variable {k k₁ : Kernel m n}

/-- A compilation in place leaves a kernel that is alike and made of the same items, also if it
fails. -/
theorem recompiled_reachable (hk : k.Distinct) (hseparate : k.Separate) :
    k.Alike k.recompiled ∧ ∀ r, r ∈ k.recompiled.reachable ↔ r ∈ k.reachable := by
  cases hlayer : Layer.analyze k with
  | error e =>
    rw [recompiled, run_compile_of_error hlayer]
    exact ⟨.refl k, fun _ => .rfl⟩
  | ok layer =>
    have hcovers := (Layer.analyze_eq_ok hlayer).2
    obtain ⟨k₁, hcommit, hwritten⟩ := Layer.run_commit hcovers
    have hreach : ∀ r, r ∈ k₁.reachable ↔ r ∈ k.reachable :=
      fun _ => hwritten.mem_reachable_iff hk hlayer
    rw [recompiled, run_compile_true hlayer hcommit]
    refine ⟨hwritten.alike.trans (left_scheduled k₁ layer).1, fun r => ?_⟩
    rw [hwritten.mem_reachable_left_iff (hwritten.alike.distinct hk)
      (hwritten.alike.separate hreach hseparate) hcovers, hreach]

/-- Any number of compilations in place do. -/
theorem iterate_recompiled_reachable (hk : k.Distinct) (hseparate : k.Separate) (runs : Nat) :
    k.Alike (recompiled^[runs] k) ∧ ∀ r, r ∈ (recompiled^[runs] k).reachable ↔ r ∈ k.reachable := by
  induction runs with
  | zero => exact ⟨.refl k, fun _ => .rfl⟩
  | succ runs ih =>
    obtain ⟨halike, hreach⟩ := ih
    obtain ⟨hnext, hreachNext⟩ :=
      recompiled_reachable (halike.distinct hk) (halike.separate hreach hseparate)
    rw [Function.iterate_succ_apply']
    exact ⟨halike.trans hnext, fun r => (hreachNext r).trans (hreach r)⟩

/-- A compilation has the free variables of its kernel as parameters, in place or not. -/
theorem parameters_of_compile (hk : k.Distinct) {inPlace : Bool} {c : Compilation}
    (h : (compile inPlace).run k = .ok c k₁) : c.parameters = k.parameters := by
  cases hlayer : Layer.analyze k with
  | error e =>
    rw [run_compile_of_error hlayer] at h
    cases h
  | ok layer =>
    cases inPlace with
    | false =>
      rw [run_compile_false hlayer] at h
      obtain ⟨-, -, -, -, -, rfl, -⟩ := scheduled_eq_ok h
      rfl
    | true =>
      obtain ⟨k₀, hcommit, hwritten⟩ := Layer.run_commit (Layer.analyze_eq_ok hlayer).2
      rw [run_compile_true hlayer hcommit] at h
      obtain ⟨-, -, -, -, -, rfl, -⟩ := scheduled_eq_ok h
      exact hwritten.parameters hk hlayer

end Kernel

open Kernel

/-- **What a kernel is made of lasts.**  If all of it has different names, then after any number of
compilations in place, whether they succeed or fail and at whatever stage, the kernel is made of the
same items, with the names, bodies and heads they had, and has the same free variables; and each run
that succeeds has these as its parameters. -/
theorem recompiled_parameters_stable {k : Kernel m n} (hk : k.Distinct) (hseparate : k.Separate)
    (runs : Nat) :
    k.Alike (recompiled^[runs] k) ∧
      (∀ r, r ∈ (recompiled^[runs] k).reachable ↔ r ∈ k.reachable) ∧
      (recompiled^[runs] k).parameters = k.parameters ∧
      ∀ c k', (compile true).run (recompiled^[runs] k) = .ok c k' →
        c.parameters = k.parameters := by
  obtain ⟨halike, hreach⟩ := iterate_recompiled_reachable hk hseparate runs
  have hparameters := halike.parameters hreach
  refine ⟨halike, hreach, hparameters, fun c k' hrun => ?_⟩
  exact (parameters_of_compile (halike.distinct hk) hrun).trans hparameters

/-- Two loops that declare one and the same instruction, and two loops inside each other. -/
def halfway : Kernel 1 4 where
  instructionTable := #v[⟨"a", .assign (.name "y") (.name "z"), []⟩]
  loopTable := #v[
    ⟨⟨"i", .literal (.int 0), .literal (.int 9), defaultStep "i", []⟩, [.instruction (row 0)]⟩,
    ⟨⟨"j", .literal (.int 0), .name "n", defaultStep "j", []⟩, [.instruction (row 0)]⟩,
    ⟨⟨"p", .literal (.int 0), .literal (.int 9), defaultStep "p", []⟩, [.loop (row 3)]⟩,
    ⟨⟨"q", .literal (.int 0), .literal (.int 9), defaultStep "q", []⟩, [.loop (row 2)]⟩]
  instructions := []
  loops := List.finRange 4

/-- Each run fails at the loops inside each other, after the first loop got the second one in place
of the instruction; the instruction is still there, inside the second loop. -/
theorem recompiled_parameters_halfway :
    halfway.Distinct ∧ halfway.Separate ∧
      (∃ k', (compile true).run halfway = .error (.cyclic ["p", "q", "p"]) k') ∧
      halfway.recompiled.members (.loop 0) = [.loop 1] ∧
      .instruction 0 ∈ (recompiled^[2] halfway).reachable ∧
      (recompiled^[2] halfway).parameters = ["n", "z"] := by
  have hdistinct : halfway.Distinct := by
    rw [Kernel.Distinct]
    decide
  have hreach : halfway.reachable = [.loop 0, .instruction 0,
      .loop 1, .loop 2, .loop 3] := by cbv
  have hseparate : halfway.Separate := by
    rw [Kernel.Separate, hreach]
    decide
  obtain ⟨-, hsame, hparameters, -⟩ := recompiled_parameters_stable hdistinct hseparate 2
  refine ⟨hdistinct, hseparate, ⟨_, by cbv⟩, by cbv, ?_, ?_⟩
  · rw [hsame, hreach]
    decide
  · rw [hparameters]
    cbv

end LoopNest
