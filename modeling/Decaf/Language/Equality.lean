import Decaf.Language.Program

/-!
# Equality of programs

Two nodes are equal when they have the same shape, the same words and operators, the
same constants (value and lexeme) and the same lines. The syntax nests lists inside
itself, so the comparison is written out, and `Expr.same_iff` and `Stmt.same_iff`
say that it decides equality.
-/

namespace Decaf

mutual

def Expr.same : Expr → Expr → Bool
  | .binary op l r n, .binary op' l' r' n' => op == op' && l.same l' && r.same r' && n == n'
  | .unary op e n, .unary op' e' n' => op == op' && e.same e' && n == n'
  | .var x n, .var x' n' => x == x' && n == n'
  | .element x i n, .element x' i' n' => x == x' && i.same i' && n == n'
  | .call f args n, .call f' args' n' => f == f' && Expr.sameList args args' && n == n'
  | .constant c, .constant c' => c == c'
  | _, _ => false

def Expr.sameList : List Expr → List Expr → Bool
  | [], [] => true
  | e :: es, e' :: es' => e.same e' && Expr.sameList es es'
  | _, _ => false

end

mutual

theorem Expr.same_iff : ∀ a b : Expr, a.same b = true ↔ a = b
  | .binary op l r n, b => by
    cases b <;> simp [Expr.same, Expr.same_iff l, Expr.same_iff r, and_assoc]
  | .unary op e n, b => by
    cases b <;> simp [Expr.same, Expr.same_iff e, and_assoc]
  | .var x n, b => by
    cases b <;> simp [Expr.same]
  | .element x i n, b => by
    cases b <;> simp [Expr.same, Expr.same_iff i, and_assoc]
  | .call f args n, b => by
    cases b <;> simp [Expr.same, Expr.sameList_iff args, and_assoc]
  | .constant c, b => by
    cases b <;> simp [Expr.same]

theorem Expr.sameList_iff : ∀ a b : List Expr, Expr.sameList a b = true ↔ a = b
  | [], b => by cases b <;> simp [Expr.sameList]
  | e :: es, b => by
    cases b <;> simp [Expr.sameList, Expr.same_iff e, Expr.sameList_iff es]

end

instance : DecidableEq Expr :=
  fun a b => decidable_of_iff _ (Expr.same_iff a b)

deriving instance DecidableEq for Assignment

mutual

def Stmt.same : Stmt → Stmt → Bool
  | .block b, .block b' => b.same b'
  | .ifElse c t e n, .ifElse c' t' e' n' =>
    c == c' && t.same t' && Block.sameOption e e' && n == n'
  | .while c b n, .while c' b' n' => c == c' && b.same b' && n == n'
  | .for i c s b n, .for i' c' s' b' n' =>
    i == i' && c == c' && s == s' && b.same b' && n == n'
  | .return v n, .return v' n' => v == v' && n == n'
  | .jump k n, .jump k' n' => k == k' && n == n'
  | .assign a, .assign a' => a == a'
  | .call f args n, .call f' args' n' => f == f' && args == args' && n == n'
  | _, _ => false
termination_by structural s => s

def Stmt.sameList : List Stmt → List Stmt → Bool
  | [], [] => true
  | s :: ss, s' :: ss' => s.same s' && Stmt.sameList ss ss'
  | _, _ => false
termination_by structural ss => ss

def Block.same : Block → Block → Bool
  | .mk vars stmts, .mk vars' stmts' => vars == vars' && Stmt.sameList stmts stmts'
termination_by structural b => b

def Block.sameOption : Option Block → Option Block → Bool
  | none, none => true
  | some b, some b' => b.same b'
  | _, _ => false
termination_by structural b => b

end

mutual

theorem Stmt.same_iff : ∀ a b : Stmt, a.same b = true ↔ a = b
  | .block s, b => by
    cases b <;> simp [Stmt.same, Block.same_iff s]
  | .ifElse c t e n, b => by
    cases b <;> simp [Stmt.same, Block.same_iff t, Block.sameOption_iff e, and_assoc]
  | .while c s n, b => by
    cases b <;> simp [Stmt.same, Block.same_iff s, and_assoc]
  | .for i c p s n, b => by
    cases b <;> simp [Stmt.same, Block.same_iff s, and_assoc]
  | .return v n, b => by
    cases b <;> simp [Stmt.same]
  | .jump k n, b => by
    cases b <;> simp [Stmt.same]
  | .assign a, b => by
    cases b <;> simp [Stmt.same]
  | .call f args n, b => by
    cases b <;> simp [Stmt.same, and_assoc]

theorem Stmt.sameList_iff : ∀ a b : List Stmt, Stmt.sameList a b = true ↔ a = b
  | [], b => by cases b <;> simp [Stmt.sameList]
  | s :: ss, b => by
    cases b <;> simp [Stmt.sameList, Stmt.same_iff s, Stmt.sameList_iff ss]

theorem Block.same_iff : ∀ a b : Block, a.same b = true ↔ a = b
  | .mk vars stmts, .mk vars' stmts' => by
    simp [Block.same, Stmt.sameList_iff stmts]

theorem Block.sameOption_iff : ∀ a b : Option Block, Block.sameOption a b = true ↔ a = b
  | none, b => by cases b <;> simp [Block.sameOption]
  | some s, b => by cases b <;> simp [Block.sameOption, Block.same_iff s]

end

instance : DecidableEq Stmt :=
  fun a b => decidable_of_iff _ (Stmt.same_iff a b)

instance : DecidableEq Block :=
  fun a b => decidable_of_iff _ (Block.same_iff a b)

deriving instance DecidableEq for Method
deriving instance DecidableEq for Package
deriving instance DecidableEq for Program

end Decaf
