import Decaf.Proofs.Generation.Acceptance
import Decaf.Proofs.Generation.Incremental

/-!
# What is warned of

Whether control can come to the end of a method is asked of the builder once the method has been
compiled, through joins that are closed as unreachable and loops that open a new block behind
them. The answer is the one that the syntax gives, and so are all warnings: they name the live
stray jumps, the live returns without the value owed, and the ends that control can come to.
-/

namespace Decaf

open IR

/-- Under the lenient policies a program that compiles is warned of for just what its live
statements and the ends of its methods call for, in the order in which they stand. -/
theorem compile_warnings {o : Options} (missing : o.missingReturn = .synthesize)
    (stray : o.strayJump = .ignore) {P : Program} {M : Module} {ws : List Warning}
    (compiled : compile o P = .ok (M, ws)) : ws = P.warnings := by
  obtain ⟨p, package, s, built, -, rfl⟩ := compile_eq_ok_iff.1 compiled
  have unchecked : Gen.Yields (Gen.program (.lenient false) P.externs p) (.start Builder.empty)
      () s := by
    obtain ⟨missingReturn, strayJump, check⟩ := o
    cases missing
    cases stray
    cases check with
    | false => exact built
    | true =>
      have checked : Gen.Yields (Gen.program { Options.lenient false with check := true } P.externs
        p) (.start Builder.empty) () s := built
      exact (yields_program_check_iff.1 checked).1
  obtain ⟨externs, _⟩ := P
  cases package
  exact (Gen.decides_program externs p).of_yields unchecked |>.2

/-- Three methods. Control does not leave the first one in its loop, nor on both ways of its
condition, and it leaves the last one on both; the second one owes nothing. -/
def wandering : Program where
  externs := []
  package := some {
    name := "P"
    fields := []
    line := 1
    methods := [
      { name := "f"
        ret := .int
        params := [⟨some "c", .bool, 2⟩]
        line := 2
        body := .mk [] [
          .jump .break 3,
          .while (.var "c" 4) (.mk [] [.jump .break 5, .jump .continue 6]) 4,
          .ifElse (.var "c" 7) (.mk [] [.return none 8, .jump .continue 9]) none 7] },
      { name := "g"
        ret := .void
        params := []
        line := 10
        body := .mk [] [.return none 11, .jump .break 12] },
      { name := "h"
        ret := .bool
        params := [⟨some "c", .bool, 13⟩]
        line := 13
        body := .mk [] [
          .ifElse (.var "c" 14) (.mk [] [.return (some (.var "c" 15)) 15])
            (some (.mk [] [.jump .continue 16, .return none 17])) 14] }] }

theorem wandering_warnings : ∃ M ws, compile (.lenient true) wandering = .ok (M, ws) ∧
    ws = [.ignoredJump .break 3, .synthesizedReturn "f" 8, .synthesizedReturn "f" 2,
      .ignoredJump .continue 16, .synthesizedReturn "h" 17] := by
  have compiles : (compile (.lenient true) wandering).toOption.isSome = true := by
    decide +kernel
  cases compiled : compile (.lenient true) wandering with
  | error e => simp [compiled, Except.toOption] at compiles
  | ok result =>
    obtain ⟨M, ws⟩ := result
    exact ⟨M, ws, rfl, compile_warnings rfl rfl compiled⟩

end Decaf
