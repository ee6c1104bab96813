import Formula.Node.Reader

/-! The equations of the descent in plain lists: a success is a value with the tokens left, and
the proof that these are fewer is set aside. Every later argument about the reader goes through
the equations here. -/

namespace Formula.Reader

def Result.plain {α : Type} {n : Nat} : Result α n → Except Failure (α × List Token)
  | .ok (value, rest) => .ok (value, rest.1)
  | .error failure => .error failure

theorem Result.plain_widen {α : Type} {m n : Nat} (h : m ≤ n) (r : Result α m) :
    (r.widen h).plain = r.plain := by
  rcases r with failure | ⟨value, rest⟩ <;> rfl

theorem Result.plain_map {α β : Type} {n : Nat} (f : α → β) (r : Result α n) :
    (r.map f).plain = r.plain.map fun p => (f p.1, p.2) := by
  rcases r with failure | ⟨value, rest⟩ <;> rfl

def read (l : Level) (ts : List Token) : Except Failure (Node × List Token) := (level l ts).plain

def readChain (l : Level) (lhs : Node) (ts : List Token) : Except Failure (Node × List Token) :=
  (chain l lhs ts).plain

def readApplication (name : Token) (ts : List Token) : Except Failure (Node × List Token) :=
  (application name ts).plain

def readOperands (ts : List Token) : Except Failure (List Node × List Token) :=
  (operands ts).plain

def readClose (opening : Token) (node : Node) (ts : List Token) :
    Except Failure (Node × List Token) :=
  (close opening node ts).plain

/-- The levels of chains read one operand and go on with the chain. -/
theorem read_chain {l : Level} (hl : l = .sum ∨ l = .product) (ts : List Token) :
    read l ts = (read l.tighter ts).bind fun p => readChain l p.1 p.2 := by
  rcases hl with rfl | rfl
  · unfold read
    rw [level, Level.tighter]
    rcases level .product ts with failure | ⟨lhs, rest⟩
    · rfl
    · exact Result.plain_widen _ _
  · unfold read
    rw [level, Level.tighter]
    rcases level .unary ts with failure | ⟨lhs, rest⟩
    · rfl
    · exact Result.plain_widen _ _

theorem read_unary_nil : read .unary [] = .error ⟨.operand, []⟩ := by
  rw [read, level]; rfl

theorem read_unary_plus {t : Token} (h : t.kind = .plus) (ts : List Token) :
    read .unary (t :: ts) = read .unary ts := by
  rw [read, level, h]
  exact Result.plain_widen _ _

theorem read_unary_minus {t : Token} (h : t.kind = .minus) (ts : List Token) :
    read .unary (t :: ts) = (read .unary ts).map fun p => (.unary .negate p.1, p.2) := by
  rw [read, level, h]
  exact (Result.plain_widen _ _).trans (Result.plain_map _ _)

theorem read_unary_leaf {t : Token} (hp : t.kind ≠ .plus) (hm : t.kind ≠ .minus)
    (ts : List Token) : read .unary (t :: ts) = read .leaf (t :: ts) := by
  rw [read, level]
  split
  · exact absurd ‹_› hp
  · exact absurd ‹_› hm
  · rfl

theorem read_leaf_nil : read .leaf [] = .error ⟨.operand, []⟩ := by
  rw [read, level]; rfl

theorem read_leaf_number {t : Token} {value : Float} (h : t.kind = .number value)
    (ts : List Token) : read .leaf (t :: ts) = .ok (.literal value, ts) := by
  rw [read, level, h]; rfl

theorem read_leaf_group {t : Token} (h : t.kind = .leftParen) (ts : List Token) :
    read .leaf (t :: ts) = (read .sum ts).bind fun p => readClose t p.1 p.2 := by
  rw [read, level, h, read]
  rcases level .sum ts with failure | ⟨node, rest⟩
  · rfl
  · exact Result.plain_widen _ _

theorem read_leaf_name {t : Token} (h : t.kind = .name) (ts : List Token) :
    read .leaf (t :: ts) = readApplication t ts := by
  rw [read, level, h]; rfl

/-- Whether an operand may start with a token of this kind, signs aside. -/
def startsLeaf : Token.Kind → Bool
  | .number _ | .leftParen | .name => true
  | _ => false

theorem read_leaf_error {t : Token} (h : startsLeaf t.kind = false) (ts : List Token) :
    read .leaf (t :: ts) = .error ⟨.operand, t :: ts⟩ := by
  rw [read, level]
  split
  · simp [startsLeaf, *] at h
  · simp [startsLeaf, *] at h
  · simp [startsLeaf, *] at h
  · rfl

theorem readChain_nil (l : Level) (lhs : Node) : readChain l lhs [] = .ok (lhs, []) := by
  rw [readChain, chain]; rfl

theorem readChain_stop {l : Level} {t : Token} (h : l.operator? t.kind = none) (lhs : Node)
    (ts : List Token) : readChain l lhs (t :: ts) = .ok (lhs, t :: ts) := by
  rw [readChain, chain]
  split
  · rfl
  · simp_all

theorem readChain_operator {l : Level} {t : Token} {op : BinaryOp}
    (h : l.operator? t.kind = some op) (lhs : Node) (ts : List Token) :
    readChain l lhs (t :: ts) =
      (read l.tighter ts).bind fun p => readChain l (.binary op lhs p.1) p.2 := by
  rw [readChain, chain, read]
  split
  · simp_all
  · obtain rfl : op = _ := Option.some.inj (h.symm.trans ‹_›)
    rcases level l.tighter ts with failure | ⟨rhs, rest⟩
    · rfl
    · exact Result.plain_widen _ _

theorem readApplication_nil (name : Token) :
    readApplication name [] = .ok (.var name.literal, []) := by
  rw [readApplication, application]; rfl

theorem readApplication_var {o : Token} (h : o.kind ≠ .leftParen) (name : Token)
    (ts : List Token) : readApplication name (o :: ts) = .ok (.var name.literal, o :: ts) := by
  rw [readApplication, application, if_neg h]; rfl

theorem readApplication_empty {o : Token} {ts : List Token} (h : o.kind = .leftParen)
    (hc : startsWithClose ts = true) (name : Token) :
    readApplication name (o :: ts) = .error ⟨.argument name o, ts⟩ := by
  rw [readApplication, application, if_pos h, if_pos hc]; rfl

theorem readApplication_call {o : Token} {ts : List Token} (h : o.kind = .leftParen)
    (hc : startsWithClose ts = false) (name : Token) :
    readApplication name (o :: ts) =
      (readOperands ts).bind fun p => readClose o (.call name.literal p.1) p.2 := by
  rw [readApplication, application, if_pos h, if_neg (by simp [hc]), readOperands]
  rcases operands ts with failure | ⟨nodes, rest⟩
  · rfl
  · exact Result.plain_widen _ _

theorem readOperands_eq (ts : List Token) :
    readOperands ts = (read .sum ts).bind fun p =>
      match p.2 with
      | [] => .ok ([p.1], [])
      | t :: rest =>
        if t.kind = .comma then (readOperands rest).map fun q => (p.1 :: q.1, q.2)
        else .ok ([p.1], t :: rest) := by
  rw [readOperands, operands, read]
  rcases level .sum ts with failure | ⟨first, ⟨_ | ⟨t, rest⟩, h⟩⟩
  · rfl
  · rfl
  · by_cases hc : t.kind = .comma
    · simp only [hc, if_true, Result.plain_widen, Result.plain_map]
      simp [Result.plain, Except.bind, hc, readOperands]
    · simp [Result.plain, Except.bind, hc]

theorem readClose_close {t : Token} (h : t.kind = .rightParen) (o : Token) (node : Node)
    (ts : List Token) : readClose o node (t :: ts) = .ok (node, ts) := by
  rw [readClose, close, if_pos h]; rfl

theorem readClose_error {t : Token} (h : t.kind ≠ .rightParen) (o : Token) (node : Node)
    (ts : List Token) : readClose o node (t :: ts) = .error ⟨.close o, t :: ts⟩ := by
  rw [readClose, close, if_neg h]; rfl

theorem parse_eq (ts : List Token) :
    parse ts = (read .sum ts).bind fun p =>
      match p.2 with
      | [] => .ok p.1
      | t :: rest => .error ⟨.finish, t :: rest⟩ := by
  rw [parse, read]
  rcases level .sum ts with failure | ⟨node, ⟨_ | ⟨t, rest⟩, h⟩⟩ <;> rfl

end Formula.Reader
