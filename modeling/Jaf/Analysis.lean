import Jaf.Analysis.Check
import Jaf.Analysis.Slots

/-!
# Analysis

Three passes over the whole program, each complete before the next one starts: types are settled,
numbers are handed out, and bodies and initial values are checked. The first error ends the analysis
and leaves tree and tables as they are by then.
-/

namespace Jaf

/-- Analyses a program, filling the container of the session. -/
def Block.analyse (b : Block) (s : Session) : Step Session Block Unit :=
  (b.bindTypes s).andThen id fun b _ s =>
    let s := s.note (.typesDone s.container.structs.length)
    (b.allot s).andThen id fun b _ s =>
      let s := s.note (.declarationsDone s.container.functions.length s.container.globals.length)
      let ⟨b, k, result⟩ := b.checkProgram s
      (Step.ofResult b k.session result).andThen id fun b _ s =>
        .done b (s.note (.checksDone s.container.initvals.length)) ()

end Jaf
