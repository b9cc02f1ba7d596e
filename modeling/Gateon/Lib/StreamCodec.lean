import Mathlib.Data.List.Basic

-- Stream encoders that write as they go, and what it means that nothing is lost in one.
namespace StreamCodec

inductive Op (α : Type) where
  | write (b : List α)
  | flush

structure Codec (α : Type) where
  emit : List (Op α) → Op α → List α
  close : List (Op α) → List α
  decode : List α → Option (List α)

variable {α : Type}

def Op.written : Op α → List α
  | .write b => b
  | .flush => []

def written (ops : List (Op α)) : List α := ops.flatMap Op.written

def Codec.outputFrom (c : Codec α) : List (Op α) → List (Op α) → List α
  | _,[] => []
  | past,op :: rest => c.emit past op ++ c.outputFrom (past ++ [op]) rest

def Codec.output (c : Codec α) (ops : List (Op α)) : List α := c.outputFrom [] ops
def Codec.Sound (c : Codec α) : Prop := ∀ ops, c.decode (c.output ops ++ c.close ops) = some (written ops)

theorem outputFrom_snoc (c : Codec α) (past ops : List (Op α)) (op : Op α) :
    c.outputFrom past (ops ++ [op]) = c.outputFrom past ops ++ c.emit (past ++ ops) op := by
  induction ops generalizing past with
  | nil => simp [Codec.outputFrom]
  | cons first rest ih => simp [Codec.outputFrom,ih]

theorem output_snoc (c : Codec α) (ops : List (Op α)) (op : Op α) : c.output (ops ++ [op]) = c.output ops ++ c.emit ops op :=
  outputFrom_snoc c [] ops op
theorem written_snoc (ops : List (Op α)) (op : Op α) : written (ops ++ [op]) = written ops ++ op.written := by
  simp [written]

end StreamCodec
