import ConcurrencyKit.Epoch.Grace.Dispatch

/-!
# Deferred calls

A callback that has been deferred with `ck_epoch_call` is dispatched only when the sections are over
that were open on other records at the time of the call, unless it is the callback of another entry
that makes the call, in an epoch whose slot the loop that dispatches all slots has yet to come to:
it then comes to the new entry as well. The same is true of `ck_epoch_call_strict`, unless the call
is made while the record is polled, in an epoch whose slot may still be emptied.
-/

namespace ConcurrencyKit.Epoch.Grace

open Threads (System)

variable {ι : Type}

/-- The threads defer calls on a shared record with `ck_epoch_call_strict` only, and on the others
with `ck_epoch_call` of their owners only. -/
def Shares (shared : ι → Prop) (i : ι) (_ : Mem ι) : Pc ι → Prop
  | .callLoad => ¬ shared i
  | .strictLoad r => shared r
  | _ => True

/-- The record is used by its owner only. Where a callback defers a call on the record, the polls
and barriers that it is called from do not come to the slot of the epoch that the call loads any
more. -/
def OwnerCalls (i : ι) (m : Mem ι) (pc : Pc ι) : Prop :=
  Shares (fun _ => False) i m pc ∧ Quiet (fun _ => True) i m pc

/-- A call that is deferred on a shared record loads an epoch whose slot the polls and barriers on
the record that are under way come to no more. -/
def StrictCalls (shared : ι → Prop) (i : ι) (m : Mem ι) (pc : Pc ι) : Prop :=
  Shares shared i m pc ∧ Quiet shared i m pc

variable [DecidableEq ι]

/-- A thread makes `n` accesses of its call. -/
theorem calls_reachable {object : ι → Bool} {cond : ι → Mem ι → Pc ι → Prop}
    {s : System (Mem ι) (Thread ι) ι} (hr : System.Reachable (CallStep object cond) Few start s)
    (i : ι) (n : Nat)
    (hcond : ∀ k < n, cond i (s.acts Mem.act i k).mem ((s.acts Mem.act i k).pc i).pc)
    (few : ∀ k < n + 1, ∀ j, Few j (s.acts Mem.act i k).mem ((s.acts Mem.act i k).pc j)) :
    System.Reachable (CallStep object cond) Few start (s.acts Mem.act i n) := by
  refine acts_reachable hr i n (fun k hk m t hm ht hne => ?_) few
  have h := hcond k hk
  rw [hm, ht] at h
  exact ⟨⟨.act hne, fun hclient => absurd hclient hne⟩, h⟩

/-- A call that an owner has deferred on its record is not dispatched while a section is open that
was open on another record at the time of the call. -/
theorem owner_call_safe (object : ι → Bool) :
    ∀ s, System.Reachable (CallStep object OwnerCalls) Few start s →
      ∀ r entry, (r, entry) ∈ s.mem.dispatched →
        ∀ j ≠ r, ∀ x ∈ s.mem.sections j, entry.clock ≤ x.begun.clock := by
  intro s hr r entry hmem j _ x hx
  have hready : Ready s.mem entry := dispatched_ready hr (fun h => h.2) trivial hmem
  exact Nat.le_of_not_lt fun hlt => hready j x ⟨hx, hlt⟩

instance (shared : ι → Prop) [DecidablePred shared] (i : ι) (m : Mem ι) :
    (pc : Pc ι) → Decidable (Shares shared i m pc)
  | .callLoad => inferInstanceAs (Decidable (¬ _))
  | .strictLoad r => inferInstanceAs (Decidable (shared r))
  | .client _ | .beginActive _ | .beginLoad _ | .beginStore _ _ | .addref | .endActive _
  | .delref _ _ | .observeLoad | .observeStore _ | .callPush _ | .strictPush _ _ | .pollLoad _
  | .synchronizeLoad _ | .scanFirst _ _ | .scanActive _ _ _ _ | .scanEpoch _ _ _ _
  | .pollStore _ _ | .pollCas _ _ | .synchronizeReload _ _ _ _ _ _ | .synchronizeCas _ _ _ _
  | .synchronized _ _ | .dispatch _ | .walk _ _ => inferInstanceAs (Decidable True)

instance (m : Mem ι) (r : ι) : Decidable (Emptied m r) :=
  inferInstanceAs (Decidable (∀ R ∈ _, ∀ e ∈ _, _))

instance (quiet : ι → Prop) [DecidablePred quiet] (i : ι) (m : Mem ι) :
    (pc : Pc ι) → Decidable (Quiet quiet i m pc)
  | .callLoad => inferInstanceAs (Decidable (_ → _))
  | .strictLoad r => inferInstanceAs (Decidable (quiet r → Emptied m r))
  | .client _ | .beginActive _ | .beginLoad _ | .beginStore _ _ | .addref | .endActive _
  | .delref _ _ | .observeLoad | .observeStore _ | .callPush _ | .strictPush _ _ | .pollLoad _
  | .synchronizeLoad _ | .scanFirst _ _ | .scanActive _ _ _ _ | .scanEpoch _ _ _ _
  | .pollStore _ _ | .pollCas _ _ | .synchronizeReload _ _ _ _ _ _ | .synchronizeCas _ _ _ _
  | .synchronized _ _ | .dispatch _ | .walk _ _ => inferInstanceAs (Decidable True)

instance (i : ι) (m : Mem ι) (pc : Pc ι) : Decidable (OwnerCalls i m pc) :=
  inferInstanceAs (Decidable (_ ∧ _))

instance (shared : ι → Prop) [DecidablePred shared] (i : ι) (m : Mem ι) (pc : Pc ι) :
    Decidable (StrictCalls shared i m pc) :=
  inferInstanceAs (Decidable (_ ∧ _))

/-- A thread defers a call and polls while all records are inactive. The callback runs, another
thread begins a section, and the callback defers a call again. It is in the slot that has just been
emptied, so that it is dispatched by a second poll only, when the section is over. -/
theorem owner_call_safe_polled : ∃ s : System (Mem Bool) (Thread Bool) Bool,
    System.Reachable (CallStep (fun _ => false) OwnerCalls) Few start s ∧
      s.mem.dispatched = [(false, ⟨1, 1⟩), (false, ⟨0, 1⟩)] ∧
      (∀ r entry, (r, entry) ∈ s.mem.dispatched →
        ∀ j ≠ r, ∀ x ∈ s.mem.sections j, entry.clock ≤ x.begun.clock) ∧
      s.mem.sections true ≠ [] := by
  have h₀ : System.Reachable (CallStep (fun _ => false) OwnerCalls) Few start
      (start (ι := Bool)) := .refl
  have h₁ := h₀.extend false ⟨⟨.register (by decide) trivial, fun _ => trivial⟩, by decide⟩
    (by decide)
  have h₂ := h₁.extend true ⟨⟨.register (by decide) trivial, fun _ => trivial⟩, by decide⟩
    (by decide)
  have h₃ := h₂.extend false ⟨⟨.call (by decide) trivial, fun _ => trivial⟩, by decide⟩ (by decide)
  have h₄ := calls_reachable h₃ false 2 (by decide) (by decide)
  have h₅ := h₄.extend false ⟨⟨.poll false (by decide) trivial, fun _ => trivial⟩, by decide⟩
    (by decide)
  have h₆ := calls_reachable h₅ false 10 (by decide) (by decide)
  -- the callback is running
  have h₇ := h₆.extend true ⟨⟨.beginSection false (by decide) trivial, fun _ => rfl⟩, by decide⟩
    (by decide)
  have h₈ := calls_reachable h₇ true 3 (by decide) (by decide)
  have h₉ := h₈.extend false ⟨⟨.call (by decide) trivial, fun _ => trivial⟩, by decide⟩ (by decide)
  have h₁₀ := calls_reachable h₉ false 2 (by decide) (by decide)
  have h₁₁ := h₁₀.extend false
    ⟨⟨.leave ⟨⟨false, [2, 3], some true⟩, []⟩ [] (by decide) trivial, fun _ => trivial⟩, by decide⟩
    (by decide)
  have h₁₂ := calls_reachable h₁₁ false 6 (by decide) (by decide)
  have h₁₃ := h₁₂.extend true
    ⟨⟨.endSection ⟨none, 1, ⟨0, 1⟩⟩ (by decide) trivial, fun _ => trivial⟩, by decide⟩ (by decide)
  have h₁₄ := calls_reachable h₁₃ true 1 (by decide) (by decide)
  have h₁₅ := h₁₄.extend false ⟨⟨.poll false (by decide) trivial, fun _ => trivial⟩, by decide⟩
    (by decide)
  have h₁₆ := calls_reachable h₁₅ false 10 (by decide) (by decide)
  have h₁₇ := h₁₆.extend true ⟨⟨.beginSection false (by decide) trivial, fun _ => rfl⟩, by decide⟩
    (by decide)
  have h₁₈ := calls_reachable h₁₇ true 3 (by decide) (by decide)
  exact ⟨_, h₁₈, by decide, owner_call_safe _ _ h₁₈, by decide⟩

/-- One thread has deferred a call, and polls while all records are inactive. In the callback it
defers another one, after the other thread has begun a section and has advanced the epoch. The new
entry is in a slot that the loop has not come to. -/
theorem owner_call_early : ∃ s : System (Mem Bool) (Thread Bool) Bool,
    System.Reachable (CallStep (fun _ => false) (Shares fun _ => False)) Few start s ∧
      ∃ entry, (false, entry) ∈ s.mem.dispatched ∧
        ∃ x ∈ s.mem.sections true, x.begun.clock < entry.clock := by
  have h₀ : System.Reachable (CallStep (fun _ => false) (Shares fun _ => False)) Few start
      (start (ι := Bool)) := .refl
  have h₁ := h₀.extend false ⟨⟨.register (by decide) trivial, fun _ => trivial⟩, trivial⟩
    (by decide)
  have h₂ := h₁.extend true ⟨⟨.register (by decide) trivial, fun _ => trivial⟩, trivial⟩ (by decide)
  have h₃ := h₂.extend false ⟨⟨.call (by decide) trivial, fun _ => trivial⟩, trivial⟩ (by decide)
  have h₄ := calls_reachable h₃ false 2 (by decide) (by decide)
  have h₅ := h₄.extend false ⟨⟨.poll false (by decide) trivial, fun _ => trivial⟩, trivial⟩
    (by decide)
  have h₆ := calls_reachable h₅ false 10 (by decide) (by decide)
  -- the callback is running
  have h₇ := h₆.extend true ⟨⟨.beginSection false (by decide) trivial, fun _ => rfl⟩, trivial⟩
    (by decide)
  have h₈ := calls_reachable h₇ true 3 (by decide) (by decide)
  have h₉ := h₈.extend true ⟨⟨.poll false (by decide) trivial, fun _ => trivial⟩, trivial⟩
    (by decide)
  have h₁₀ := calls_reachable h₉ true 10 (by decide) (by decide)
  have h₁₁ := h₁₀.extend false ⟨⟨.call (by decide) trivial, fun _ => trivial⟩, trivial⟩ (by decide)
  have h₁₂ := calls_reachable h₁₁ false 2 (by decide) (by decide)
  have h₁₃ := h₁₂.extend false
    ⟨⟨.leave ⟨⟨false, [2, 3], some true⟩, []⟩ [] (by decide) trivial, fun _ => trivial⟩, trivial⟩
    (by decide)
  have h₁₄ := calls_reachable h₁₃ false 3 (by decide) (by decide)
  exact ⟨_, h₁₄, ⟨1, 2⟩, by decide, ⟨none, 1, ⟨0, 1⟩⟩, by decide, by decide⟩

/-- A call that has been deferred on a shared record is not dispatched while a section is open that
was open on another record at the time of the call. -/
theorem strict_call_safe (object : ι → Bool) (shared : ι → Prop) :
    ∀ s, System.Reachable (CallStep object (StrictCalls shared)) Few start s →
      ∀ r entry, (r, entry) ∈ s.mem.dispatched → shared r →
        ∀ j ≠ r, ∀ x ∈ s.mem.sections j, entry.clock ≤ x.begun.clock := by
  intro s hr r entry hmem hshared j _ x hx
  have hready : Ready s.mem entry := dispatched_ready hr (fun h => h.2) hshared hmem
  exact Nat.le_of_not_lt fun hlt => hready j x ⟨hx, hlt⟩

/-- A thread defers a call on the record of another one, which polls. While the callback runs, the
thread begins a section and defers another call there, in the slot that has just been emptied. It is
dispatched by a second poll, when the section is over. -/
theorem strict_call_safe_polled : ∃ s : System (Mem Bool) (Thread Bool) Bool,
    System.Reachable (CallStep (fun _ => false) (StrictCalls fun r => r = false)) Few start s ∧
      s.mem.dispatched = [(false, ⟨1, 1⟩), (false, ⟨0, 1⟩)] ∧
      ∀ r entry, (r, entry) ∈ s.mem.dispatched → r = false →
        ∀ j ≠ r, ∀ x ∈ s.mem.sections j, entry.clock ≤ x.begun.clock := by
  have h₀ : System.Reachable (CallStep (fun _ => false) (StrictCalls fun r => r = false)) Few start
      (start (ι := Bool)) := .refl
  have h₁ := h₀.extend false ⟨⟨.register (by decide) trivial, fun _ => trivial⟩, by decide⟩
    (by decide)
  have h₂ := h₁.extend true ⟨⟨.register (by decide) trivial, fun _ => trivial⟩, by decide⟩
    (by decide)
  have h₃ := h₂.extend true ⟨⟨.callStrict false (by decide) trivial, fun _ => trivial⟩, by decide⟩
    (by decide)
  have h₄ := calls_reachable h₃ true 2 (by decide) (by decide)
  have h₅ := h₄.extend false ⟨⟨.poll false (by decide) trivial, fun _ => trivial⟩, by decide⟩
    (by decide)
  have h₆ := calls_reachable h₅ false 10 (by decide) (by decide)
  -- the callback is running
  have h₇ := h₆.extend true ⟨⟨.beginSection false (by decide) trivial, fun _ => rfl⟩, by decide⟩
    (by decide)
  have h₈ := calls_reachable h₇ true 3 (by decide) (by decide)
  have h₉ := h₈.extend true ⟨⟨.callStrict false (by decide) trivial, fun _ => trivial⟩, by decide⟩
    (by decide)
  have h₁₀ := calls_reachable h₉ true 2 (by decide) (by decide)
  have h₁₁ := h₁₀.extend false
    ⟨⟨.leave ⟨⟨false, [2, 3], some true⟩, []⟩ [] (by decide) trivial, fun _ => trivial⟩, by decide⟩
    (by decide)
  have h₁₂ := calls_reachable h₁₁ false 6 (by decide) (by decide)
  have h₁₃ := h₁₂.extend true
    ⟨⟨.endSection ⟨none, 1, ⟨0, 1⟩⟩ (by decide) trivial, fun _ => trivial⟩, by decide⟩ (by decide)
  have h₁₄ := calls_reachable h₁₃ true 1 (by decide) (by decide)
  have h₁₅ := h₁₄.extend false ⟨⟨.poll false (by decide) trivial, fun _ => trivial⟩, by decide⟩
    (by decide)
  have h₁₆ := calls_reachable h₁₅ false 10 (by decide) (by decide)
  exact ⟨_, h₁₆, by decide, strict_call_safe _ _ _ h₁₆⟩

/-- The owner of the record has found all records inactive. Then another thread begins a section and
defers a call on the record, which the loop comes to. -/
theorem strict_call_early : ∃ s : System (Mem Bool) (Thread Bool) Bool,
    System.Reachable (CallStep (fun _ => false) (Shares fun r => r = false)) Few start s ∧
      ∃ entry, (false, entry) ∈ s.mem.dispatched ∧
        ∃ x ∈ s.mem.sections true, x.begun.clock < entry.clock := by
  have h₀ : System.Reachable (CallStep (fun _ => false) (Shares fun r => r = false)) Few start
      (start (ι := Bool)) := .refl
  have h₁ := h₀.extend false ⟨⟨.register (by decide) trivial, fun _ => trivial⟩, trivial⟩
    (by decide)
  have h₂ := h₁.extend true ⟨⟨.register (by decide) trivial, fun _ => trivial⟩, trivial⟩ (by decide)
  have h₃ := h₂.extend false ⟨⟨.poll false (by decide) trivial, fun _ => trivial⟩, trivial⟩
    (by decide)
  have h₄ := calls_reachable h₃ false 5 (by decide) (by decide)
  -- the scan is over
  have h₅ := h₄.extend true ⟨⟨.beginSection false (by decide) trivial, fun _ => rfl⟩, trivial⟩
    (by decide)
  have h₆ := calls_reachable h₅ true 3 (by decide) (by decide)
  have h₇ := h₆.extend true ⟨⟨.callStrict false (by decide) trivial, fun _ => trivial⟩, trivial⟩
    (by decide)
  have h₈ := calls_reachable h₇ true 2 (by decide) (by decide)
  have h₉ := calls_reachable h₈ false 5 (by decide) (by decide)
  exact ⟨_, h₉, ⟨1, 1⟩, by decide, ⟨none, 1, ⟨0, 1⟩⟩, by decide, by decide⟩

end ConcurrencyKit.Epoch.Grace
