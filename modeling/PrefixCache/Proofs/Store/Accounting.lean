import PrefixCache.Proofs.Store.Raising
/-!
# Exact accounting

Whatever run a store has been through, its counters say exactly what its
slots hold (`accounting_of_run`). The run may do anything, and calls that
are refused are part of it.
-/

namespace PrefixCache

namespace Store

/-- Adding up weights is counting the compressed. -/
theorem sum_compressedWeight (items : List Item) :
    (items.map fun i => Counters.compressedWeight i.value).sum =
      items.countP fun i => i.value.encoding = .compressed := by
  induction items with
  | nil => rfl
  | cons item items ih =>
    rw [List.map_cons, List.sum_cons, ih, List.countP_cons]
    by_cases h : item.value.encoding = .compressed <;>
      simp [Counters.compressedWeight, h, Nat.add_comm]

/-- **After every run the counters are exact.** Memory is the sum of the
sizes over the occupied slots, with the overhead of each; the items are
those slots, and the trie counts as many; the compressed items are those
slots that hold a compressed value; the compressions are the compressed
items stored so far; and the peak covers what is used. From there no
operation lowers the peak, none subtracts more than there is (with all
these counters raised by any amount it leads to the same, raised by that
amount), and destroying everything leaves zero. -/
theorem accounting_of_run (limits : StoreLimits) (start : Int) (ops : List Operation) :
    let s := (empty limits start).after ops
    s.counters.memoryUsed = (s.trie.occupants.map fun i => i.size + 80).sum ∧
    s.counters.items = s.trie.occupants.length ∧
    s.counters.items = s.size ∧
    s.counters.compressedItems =
      s.trie.occupants.countP (fun i => i.value.encoding = .compressed) ∧
    s.counters.compressions = (empty limits start).packedOver ops ∧
    s.counters.memoryUsed ≤ s.counters.memoryPeak ∧
    (∀ op : Operation, s.counters.memoryPeak ≤ (op.run s).2.counters.memoryPeak) ∧
    (∀ (op : Operation) (b : Nat), (op.run (s.raised b)).2 = (op.run s).2.raised b) ∧
    s.destroyAll.2.counters.memoryUsed = 0 ∧
    s.destroyAll.2.counters.items = 0 ∧
    s.destroyAll.2.counters.compressedItems = 0 := by
  intro s
  have hrun := upholds_after (sound_empty limits start) ops
  have hsound : s.Sound := hrun.sound
  obtain ⟨hitems, hcompressed, hmemory⟩ := counters_destroyAll hsound
  refine ⟨hsound.memory, hsound.items, hsound.items.trans hsound.tallied.symm, ?_, ?_,
    hsound.peak, ?_, ?_, hmemory, hitems, hcompressed⟩
  · rw [hsound.compressed, sum_compressedWeight]
  · rw [hrun.compressions]
    exact Nat.zero_add _
  · exact fun op => (Operation.upholds_run hsound op).peak
  · exact fun op b => Operation.run_raised hsound op b

end Store

end PrefixCache
