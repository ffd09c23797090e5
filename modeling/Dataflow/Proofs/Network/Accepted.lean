import Dataflow.Proofs.Network.Legal
import Dataflow.Proofs.Network.Reachable

/-! Which networks validation accepts, in terms of their processes, ports and connections alone. -/

open List

namespace Dataflow

namespace Network

variable {net : Network}

/-- Validation finds nothing exactly if no composite is left, every process has the payload and the
ports that its kind asks for, no port on the boundary of the graph is connected, no loop of
connections avoids all delays, and no loop that passes every process at most once passes two of
them. -/
theorem WellFormed.validate_accepts_iff (wellFormed : net.WellFormed) :
    net.validate = [] ↔
      (∀ id process, net.process? id = some process → process.kind.isLeaf) ∧
      (∀ id process, net.process? id = some process → process.defect? = none) ∧
      (∀ key port, net.isBoundary key → net.port? key = some port → port.connection = none) ∧
      (¬ ∃ loop, net.IsLoop loop ∧ ∀ id ∈ loop, ¬ net.isDelay id) ∧
      ¬ ∃ loop, net.IsLoop loop ∧ loop.Nodup ∧ 2 ≤ loop.countP net.isDelay := by
  -- Acceptance means that the network is legal, which says the same of its loops positively.
  rw [wellFormed.validate_eq_nil_iff]
  constructor
  · intro legal
    refine ⟨fun _ _ stored => legal.leaves stored, fun _ _ stored => legal.fits stored,
      fun _ _ onBoundary live => legal.unconnected onBoundary live,
      fun ⟨loop, isLoop, instant⟩ => ?_, fun ⟨loop, isLoop, once, many⟩ => ?_⟩
    · obtain ⟨id, onLoop, delays⟩ := legal.delayed isLoop
      exact instant id onLoop delays
    · exact absurd (legal.single isLoop once) (Nat.not_le_of_lt many)
  · rintro ⟨leaves, fits, unconnected, delayed, single⟩
    refine ⟨leaves _ _, fits _ _, unconnected _ _, fun {loop} isLoop => ?_,
      fun {loop} isLoop once => ?_⟩
    · by_contra instant
      exact delayed ⟨loop, isLoop, fun id onLoop delays => instant ⟨id, onLoop, delays⟩⟩
    · by_contra many
      exact single ⟨loop, isLoop, once, Nat.lt_of_not_le many⟩

/-- Two loops of a delay each that share the process at which they part and the one at which they
meet. -/
def figureEight : Network :=
  Operation.build
    (Operation.addAll none [("meet", .zip, ["in0", "in1"], ["out"]),
        ("part", .fanout, ["in"], ["out0", "out1"]), ("left", .delay "0", ["in"], ["out"]),
        ("right", .delay "1", ["in"], ["out"])] ++
      [.connect 2 3, .connect 4 6, .connect 7 0, .connect 5 8, .connect 9 1])

/-- The way round both loops passes two delays, but also some processes twice, so validation accepts
the network. -/
theorem validate_accepts_figureEight :
    figureEight.WellFormed ∧ figureEight.IsLoop ["part", "left", "meet", "part", "right", "meet"] ∧
    (["part", "left", "meet", "part", "right", "meet"].countP figureEight.isDelay = 2) ∧
    figureEight.validate = [] ∧
    ¬ ∃ loop, figureEight.IsLoop loop ∧ loop.Nodup ∧ 2 ≤ loop.countP figureEight.isDelay := by
  have reachable : figureEight.Reachable := Reachable.empty.foldl (by simp [Operation.Allowed])
  have wellFormed : figureEight.WellFormed := ⟨reachable.inv, by decide +kernel⟩
  have feeds {source target : ProcessId} (listed : target ∈ figureEight.targets source) :
      figureEight.Feeds source target := wellFormed.mem_targets.mp listed
  have accepted : figureEight.validate = [] := by decide +kernel
  refine ⟨wellFormed, ⟨_, _, rfl, ?_⟩, by decide +kernel, accepted,
    (WellFormed.validate_accepts_iff wellFormed).mp accepted |>.2.2.2.2⟩
  simp only [cons_append, nil_append, isChain_cons_cons, isChain_singleton, and_true]
  refine ⟨feeds ?_, feeds ?_, feeds ?_, feeds ?_, feeds ?_, feeds ?_⟩ <;> decide +kernel

end Network

end Dataflow
