import SchemaLoom.Proofs.Production.Calls

/-! What becomes of what is awaited when a batch is closed. If there is a reason to cancel, nothing
stays pending, and if there is none, nothing changes. -/

namespace SchemaLoom

namespace Progress

/-- What cancelling makes of work in the end. -/
def closed : Progress → Progress
  | .finished result => .finished result
  | _ => .cancelled

theorem iterate_advance_of_not_pending {p : Progress} (h : p.isPending = false) (index n : Nat) :
    (advance index)^[n] p = p := by
  have hfix : advance index p = p := by rw [advance, turn_of_not_pending h]
  exact Function.iterate_fixed hfix n

/-- A task that was told to stop stops at its next turn, and everything else has ended at once. -/
theorem iterate_advance_cancel {n : Nat} (hn : 0 < n) (index : Nat) (p : Progress) :
    (advance index)^[n] (p.cancel index).2 = p.closed := by
  obtain ⟨m, rfl⟩ : ∃ m, n = m + 1 := ⟨n - 1, by omega⟩
  rw [Function.iterate_succ_apply]
  cases p <;> exact iterate_advance_of_not_pending rfl index m

theorem isPending_closed (p : Progress) : p.closed.isPending = false := by
  cases p <;> rfl

end Progress

namespace Batch

variable {b : Batch} {closing : List Nat}

theorem finish_of_not_isCancelling (h : b.isCancelling = false) (closing : List Nat) :
    b.finish closing = b := by
  simp [finish, h]

/-- When all that was told to stop has had a turn, every future has ended: with its result if it
came to it before, else by being cancelled. -/
theorem futures_finish_of_isCancelling (hnd : (b.futures.map Prod.fst).Nodup)
    (h : b.isCancelling = true) (hclosing : ∀ e ∈ b.futures, e.1 ∈ closing) :
    (b.finish closing).futures = b.futures.map fun (i, p) => (i, p.closed) := by
  have hnd' : (b.cancelAll.futures.map Prod.fst).Nodup := by
    simpa [cancelAll, Function.comp_def] using hnd
  rw [finish, if_pos h, futures_proceedAll hnd', cancelAll, List.map_map]
  refine List.map_congr_left fun e he => ?_
  have hpos : 0 < closing.count e.1 := List.count_pos_iff.mpr (hclosing e he)
  exact congrArg (Prod.mk e.1) (Progress.iterate_advance_cancel hpos e.1 _)

theorem isPending_of_mem_finish (hnd : (b.futures.map Prod.fst).Nodup)
    (h : b.isCancelling = true) (hclosing : ∀ e ∈ b.futures, e.1 ∈ closing) :
    ∀ e ∈ (b.finish closing).futures, e.2.isPending = false := by
  intro e he
  rw [futures_finish_of_isCancelling hnd h hclosing] at he
  obtain ⟨own, -, rfl⟩ := List.mem_map.mp he
  exact Progress.isPending_closed own.2

theorem results_of_failure {failure : Failure} (hf : b.failure = some failure)
    (h : b.isCancelling = false) (produced : List Produced) :
    b.results produced = .error failure := by
  simp [results, hf, h]

end Batch

/-- If no producer raises, what is produced is awaited together. -/
theorem produceClosing_eq {modules : List Given} {produced : List Produced}
    (h : modules.map Given.produced? = produced.map some)
    (closing schedule : List Produced → List Nat) :
    let batch := ((Batch.start produced).resumeAll (schedule produced)).finish (closing produced)
    produceClosing closing schedule modules =
      ⟨(modules.findIdxs Given.isProducer).map Event.called ++ batch.events,
        batch.results produced, batch.futures⟩ := by
  rw [produceClosing, produceFrom_eq h 0]

end SchemaLoom
