import Generics.Proofs.Const.Exact
import Generics.Proofs.Except

/-!
# The grammar of const expressions

The tokens of an expression derive its tree at one of three levels. Operands are literals, groups
and negations; products join operands by asterisks, and sums join products by plus signs, both to
the left.

The readers evaluate while they read and keep a proof with each result that tokens were used up.
Here the readers of the three levels are one function of the level without these proofs, `readAt`,
and the loops that go on with what follows are another, `goOnAt`. Both operators obey the same
equations, so everything about the loops is said once for both.

## Main results

* `Derives.readAt_append`: tokens that derive a tree are read as the value of the tree;
* `found_of_readAt`: what is read with a value derives a tree of this value;
* `Derives.evalTokens_eq` and `exists_derives_of_evalTokens`: the same for all tokens of an
  expression.
-/

namespace Generics.Const

open Text

/-! ## What the readers do -/

/-- How tightly an expression holds together. -/
inductive Level where
  | operand
  | product
  | sum

namespace Operator

/-- The level of the expressions that an operator makes. -/
def level : Operator → Level
  | times => .product
  | plus => .sum

/-- The level of the right operand, and of a left one that is not made by the same operator. -/
def below : Operator → Level
  | times => .operand
  | plus => .product

end Operator

/-- The value of an expression of some level at the front, and the tokens after it. -/
def readAt : Level → List Token → Except Failure (ConstValue × List Token)
  | .operand, ts => (operand ts).map fun r => (r.value, r.rest)
  | .product, ts => (product ts).map fun r => (r.value, r.rest)
  | .sum, ts => (sum ts).map fun r => (r.value, r.rest)

/-- The value of an expression of some level that starts with the given value, and the tokens after
it. -/
def goOnAt : Level → ConstValue → List Token → Except Failure (ConstValue × List Token)
  | .operand, lhs, ts => .ok (lhs, ts)
  | .product, lhs, ts => (factors lhs ts).map fun r => (r.value, r.rest)
  | .sum, lhs, ts => (terms lhs ts).map fun r => (r.value, r.rest)

/-- The parenthesis that closes a group. -/
def closing (r : ConstValue × List Token) : Except Failure (ConstValue × List Token) :=
  if r.2.head? = some (.op ')') then .ok (r.1, r.2.tail) else .error (.fault .missingParen)

/-- The value of a token that is an operand by itself. -/
def literalOf : Token → Except Failure ConstValue
  | .int digits => intLiteral digits
  | .string body => stringLiteral body
  | .word name => nameValue name
  | .op c => .error (.fault (.operandExpected c.toString))

/-- There is no operand at the end. -/
theorem readAt_nil : readAt .operand [] = .error (.fault .operandAtEnd) := by
  rw [readAt, operand.eq_def]
  rfl

/-- An opening parenthesis starts a sum that a closing one ends. -/
theorem readAt_open (ts : List Token) :
    readAt .operand (.op '(' :: ts) = readAt .sum ts >>= closing := by
  rw [readAt, readAt, operand.eq_def]
  simp only [if_true]
  refine map_bind_of_eq fun r => ?_
  -- both sides test the same parenthesis, before and after the proof is dropped
  show Except.map _ (ite _ _ _) = ite _ _ _
  split <;> rfl

/-- A minus in front of an operand negates it. -/
theorem readAt_minus (ts : List Token) :
    readAt .operand (.op '-' :: ts) =
      readAt .operand ts >>= fun r => (neg r.1).map fun v => (v, r.2) := by
  rw [readAt, operand.eq_def]
  simp only [if_neg (by decide : ¬('-' : Char) = '('), if_true]
  exact map_bind_of_eq fun r => map_bind_pure (neg r.value) _ _

/-- Any other token is a literal, or no operand at all. -/
theorem readAt_literal {tok : Token} (hopen : tok ≠ .op '(') (hminus : tok ≠ .op '-')
    (ts : List Token) :
    readAt .operand (tok :: ts) = (literalOf tok).map fun v => (v, ts) := by
  rw [readAt, operand.eq_def]
  cases tok with
  | int digits => exact map_bind_pure (intLiteral digits) _ _
  | string body => exact map_bind_pure (stringLiteral body) _ _
  | word name => exact map_bind_pure (nameValue name) _ _
  | op c =>
    -- an operator that opens nothing and negates nothing is the error of `literalOf`
    have hc : c ≠ '(' := fun h => hopen (congrArg Token.op h)
    have hc' : c ≠ '-' := fun h => hminus (congrArg Token.op h)
    simp only [if_neg hc, if_neg hc']
    rfl

/-- An expression of a level is one of the level below that goes on. -/
theorem readAt_level (op : Operator) (ts : List Token) :
    readAt op.level ts = readAt op.below ts >>= fun r => goOnAt op.level r.1 r.2 := by
  cases op with
  | times =>
    show Except.map _ (product ts) = Except.map _ (operand ts) >>= _
    rw [product]
    exact map_bind_of_eq fun r => map_bind_pure (factors r.value r.rest) _ _
  | plus =>
    show Except.map _ (sum ts) = Except.map _ (product ts) >>= _
    rw [sum]
    exact map_bind_of_eq fun r => map_bind_pure (terms r.value r.rest) _ _

/-- After its operator an expression goes on with a right operand. -/
theorem goOnAt_symbol (op : Operator) (lhs : ConstValue) (ts : List Token) :
    goOnAt op.level lhs (.op op.symbol :: ts) =
      readAt op.below ts >>= fun r => op.apply lhs r.1 >>= fun v => goOnAt op.level v r.2 := by
  cases op with
  | times =>
    show Except.map _ (factors lhs (.op '*' :: ts)) = Except.map _ (operand ts) >>= _
    rw [factors]
    refine map_bind_of_eq fun r => ?_
    -- the operation is done before the loop goes on, so its failure ends both sides
    show Except.map _ (mul lhs r.value >>= _) =
      mul lhs r.value >>= fun v => goOnAt .product v r.rest
    cases mul lhs r.value with
    | error f => rfl
    | ok v => exact map_bind_pure (factors v r.rest) _ _
  | plus =>
    show Except.map _ (terms lhs (.op '+' :: ts)) = Except.map _ (product ts) >>= _
    rw [terms]
    refine map_bind_of_eq fun r => ?_
    show Except.map _ (add lhs r.value >>= _) =
      add lhs r.value >>= fun v => goOnAt .sum v r.rest
    cases add lhs r.value with
    | error f => rfl
    | ok v => exact map_bind_pure (terms v r.rest) _ _

/-- Without its operator an expression ends. -/
theorem goOnAt_of_ne (op : Operator) (lhs : ConstValue) {ts : List Token}
    (h : ts.head? ≠ some (.op op.symbol)) : goOnAt op.level lhs ts = .ok (lhs, ts) := by
  have hne : ∀ rest, ts ≠ .op op.symbol :: rest := by
    rintro rest rfl
    exact h rfl
  cases op with
  | times =>
    show Except.map _ (factors lhs ts) = _
    rw [factors.eq_2 lhs ts hne]
    rfl
  | plus =>
    show Except.map _ (terms lhs ts) = _
    rw [terms.eq_2 lhs ts hne]
    rfl

/-! ## Derivations -/

/-- A token that is a literal of an expression. -/
inductive Denotes : Token → Expr → Prop
  | int {digits : List Char} {n : Nat} (hn : n < 2 ^ 63) (h : Nat.ofDigitChars 10 digits 0 = n) :
      Denotes (.int digits) (.int n hn)
  | bool (b : Bool) : Denotes (.word (Utf8.ofText (toString b))) (.bool b)
  | string {body bytes : List UInt8} (h : Quoted.decode body = some bytes) :
      Denotes (.string body) (.string bytes)

/-- The tokens are those of an expression of the level. -/
inductive Derives : Level → List Token → Expr → Prop
  | literal {tok : Token} {e : Expr} (h : Denotes tok e) : Derives .operand [tok] e
  | group {ts : List Token} {e : Expr} (h : Derives .sum ts e) :
      Derives .operand (.op '(' :: (ts ++ [.op ')'])) e
  | neg {ts : List Token} {e : Expr} (h : Derives .operand ts e) :
      Derives .operand (.op '-' :: ts) (.neg e)
  | single {op : Operator} {ts : List Token} {e : Expr} (h : Derives op.below ts e) :
      Derives op.level ts e
  | binary {op : Operator} {ts us : List Token} {lhs rhs : Expr} (hl : Derives op.level ts lhs)
      (hr : Derives op.below us rhs) :
      Derives op.level (ts ++ .op op.symbol :: us) (.binary op lhs rhs)

/-- No expression is written without tokens. -/
theorem Derives.ne_nil {l : Level} {ts : List Token} {e : Expr} (h : Derives l ts e) : ts ≠ [] := by
  induction h with
  | single _ ih => exact ih
  | _ => simp

/-- The number of a literal is in range exactly when it has 64 bits. -/
theorem intLiteral_of_lt {digits : List Char} {n : Nat} (hn : n < 2 ^ 63)
    (h : Nat.ofDigitChars 10 digits 0 = n) : intLiteral digits = .ok (.integer n) := by
  have hword : ConstValue.inWord n = true := by
    rw [ConstValue.inWord_iff]
    have : (n : Int) < 2 ^ 63 := by exact_mod_cast hn
    omega
  rw [intLiteral, h]
  exact if_pos hword

/-- Truth values are read back from their names. -/
theorem nameValue_toString (b : Bool) : nameValue (Utf8.ofText (toString b)) = .ok (.bool b) := by
  cases b with
  | true => exact if_pos rfl
  | false =>
    rw [nameValue, if_neg (by decide +kernel)]
    exact if_pos rfl

/-- A literal has the value of its tree, and is neither a parenthesis nor a minus sign. -/
theorem Denotes.readAt_cons {tok : Token} {e : Expr} (h : Denotes tok e) (ts : List Token) :
    readAt .operand (tok :: ts) = e.value.map fun v => (v, ts) := by
  cases h with
  | int hn h =>
    rw [readAt_literal (by rintro ⟨⟩) (by rintro ⟨⟩), literalOf, intLiteral_of_lt hn h]
    rfl
  | bool b =>
    rw [readAt_literal (by rintro ⟨⟩) (by rintro ⟨⟩), literalOf, nameValue_toString]
    rfl
  | string h =>
    rw [readAt_literal (by rintro ⟨⟩) (by rintro ⟨⟩), literalOf, stringLiteral, h]
    rfl

/-- Nothing that holds tighter than the level goes on. -/
def Calm : Level → List Token → Prop
  | .sum, rest => rest.head? ≠ some (.op '*')
  | _, _ => True

/-- Nothing that goes on holds tighter than the level below an operator. -/
theorem calm_below (op : Operator) (rest : List Token) : Calm op.below rest := by
  cases op <;> exact trivial

/-- An operand of the level below ends there. -/
theorem Calm.goOnAt_below {op : Operator} {rest : List Token} (h : Calm op.level rest)
    (lhs : ConstValue) : goOnAt op.below lhs rest = .ok (lhs, rest) := by
  cases op with
  | times => rfl
  | plus => exact goOnAt_of_ne .times lhs h

/-- An operator does not hold tighter than its own level. -/
theorem calm_symbol (op : Operator) (ts : List Token) : Calm op.level (.op op.symbol :: ts) := by
  cases op with
  | times => exact trivial
  | plus =>
    show some (Token.op '+') ≠ some (.op '*')
    decide

/-- Tokens that derive a tree are read as the value of the tree, and then go on. -/
theorem Derives.readAt_append {l : Level} {ts : List Token} {e : Expr} (h : Derives l ts e)
    (rest : List Token) (hcalm : Calm l rest) :
    readAt l (ts ++ rest) = e.value >>= fun v => goOnAt l v rest := by
  induction h generalizing rest with
  | literal h =>
    rw [List.singleton_append, h.readAt_cons]
    rfl
  | @group ts e _ ih =>
    -- no operator goes on into a closing parenthesis
    have hclose : ∀ v, goOnAt .sum v (.op ')' :: rest) = .ok (v, .op ')' :: rest) :=
      fun v => goOnAt_of_ne .plus v (by simp [Operator.symbol])
    rw [List.cons_append, List.append_assoc, List.singleton_append, readAt_open,
      ih (.op ')' :: rest) (by simp [Calm])]
    simp only [hclose]
    cases e.value <;> rfl
  | @neg ts e _ ih =>
    rw [List.cons_append, readAt_minus, ih rest trivial, Expr.value]
    cases e.value with
    | error f => rfl
    | ok v =>
      show (Const.neg v).map _ = Const.neg v >>= _
      cases Const.neg v <;> rfl
  | @single op ts e _ ih =>
    -- the tighter expression ends at the rest, and the loop of this level starts there
    rw [readAt_level, ih rest (calm_below op rest)]
    simp only [hcalm.goOnAt_below]
    cases e.value <;> rfl
  | @binary op ts us lhs rhs _ _ ihl ihr =>
    rw [List.append_assoc, List.cons_append, ihl _ (calm_symbol op _), Expr.value, bind_assoc]
    refine bind_congr fun x => ?_
    -- the right operand is read up to the rest, and the loop goes on with the result
    rw [goOnAt_symbol, ihr rest (calm_below op rest), bind_assoc, bind_assoc]
    refine bind_congr fun y => ?_
    rw [hcalm.goOnAt_below y]
    rfl

/-! ## What is read derives a tree -/

/-- The tokens start with those of a tree that has the value, and the rest follows. -/
def Found (l : Level) (ts : List Token) (v : ConstValue) (rest : List Token) : Prop :=
  ∃ us e, ts = us ++ rest ∧ Derives l us e ∧ e.value = .ok v

/-- Whatever is read at the level from at most `n` tokens is found there. -/
def SoundUpTo (l : Level) (n : Nat) : Prop :=
  ∀ ts v rest, ts.length ≤ n → readAt l ts = .ok (v, rest) → Found l ts v rest

/-- The value of a literal is that of an expression that the literal denotes. -/
theorem exists_denotes_of_literalOf {tok : Token} {v : ConstValue} (h : literalOf tok = .ok v) :
    ∃ e, Denotes tok e ∧ e.value = .ok v := by
  cases tok with
  | int digits =>
    rw [literalOf, intLiteral] at h
    split at h
    case isTrue hword =>
      have hn : Nat.ofDigitChars 10 digits 0 < 2 ^ 63 := by
        exact_mod_cast (ConstValue.inWord_iff.mp hword).2
      exact ⟨.int _ hn, .int hn rfl, h⟩
    case isFalse => cases h
  | string body =>
    rw [literalOf, stringLiteral] at h
    split at h
    case h_1 bytes hbytes => exact ⟨.string bytes, .string hbytes, h⟩
    case h_2 => cases h
  | word name =>
    rw [literalOf, nameValue] at h
    split at h
    case isTrue htrue =>
      subst htrue
      exact ⟨.bool true, .bool true, h⟩
    case isFalse =>
      split at h
      case isTrue hfalse =>
        subst hfalse
        exact ⟨.bool false, .bool false, h⟩
      case isFalse => cases h
  | op c => cases h

/-- An expression that goes on ends in a tree whose first part is the one before. -/
theorem SoundUpTo.found_of_goOnAt {op : Operator} {n : Nat} (hbelow : SoundUpTo op.below n)
    {ts us rest : List Token} {e : Expr} {lhs v : ConstValue} (hn : ts.length ≤ n)
    (hus : Derives op.level us e) (he : e.value = .ok lhs)
    (hgoOn : goOnAt op.level lhs ts = .ok (v, rest)) : Found op.level (us ++ ts) v rest := by
  -- the tree grows to the left while the tokens get fewer
  induction hlen : ts.length using Nat.strong_induction_on generalizing ts us e lhs with
  | _ m ih =>
    by_cases hhead : ts.head? = some (.op op.symbol)
    · obtain ⟨ts, rfl⟩ := List.head?_eq_some_iff.mp hhead
      rw [List.length_cons] at hn hlen
      rw [goOnAt_symbol] at hgoOn
      obtain ⟨⟨rhs, next⟩, hread, happlied⟩ := exists_ok_of_bind_eq_ok hgoOn
      obtain ⟨w, happly, hnext⟩ := exists_ok_of_bind_eq_ok happlied
      obtain ⟨vs, e', rfl, hvs, he'⟩ := hbelow ts rhs next (by omega) hread
      have hvalue : (Expr.binary op e e').value = .ok w := by
        rw [Expr.value, he, he']
        exact happly
      rw [List.length_append] at hn hlen
      have hlen' : next.length ≤ n := by omega
      have hfound := ih next.length (by omega) hlen' (.binary hus hvs) hvalue hnext rfl
      rwa [List.append_assoc, List.cons_append] at hfound
    · rw [goOnAt_of_ne op lhs hhead] at hgoOn
      cases hgoOn
      exact ⟨us, e, rfl, hus, he⟩

/-- Soundness at the level below gives soundness at the level, for as many tokens. -/
theorem SoundUpTo.level (op : Operator) {n : Nat} (hbelow : SoundUpTo op.below n) :
    SoundUpTo op.level n := by
  intro ts v rest hn hread
  rw [readAt_level] at hread
  obtain ⟨⟨lhs, next⟩, hlhs, hgoOn⟩ := exists_ok_of_bind_eq_ok hread
  obtain ⟨us, e, rfl, hus, he⟩ := hbelow ts lhs next hn hlhs
  rw [List.length_append] at hn
  exact hbelow.found_of_goOnAt (by omega) (.single hus) he hgoOn

/-- What is sound for operands is sound at every level. -/
theorem SoundUpTo.of_operand {n : Nat} (h : SoundUpTo .operand n) (l : Level) : SoundUpTo l n := by
  have hproduct := SoundUpTo.level .times h
  cases l with
  | operand => exact h
  | product => exact hproduct
  | sum => exact SoundUpTo.level .plus hproduct

/-- What holds of all expressions of up to `n` tokens holds of operands with one token more. -/
theorem SoundUpTo.operand_succ {n : Nat} (h : SoundUpTo .operand n) :
    SoundUpTo .operand (n + 1) := by
  intro ts v rest hn hread
  cases ts with
  | nil =>
    rw [readAt_nil] at hread
    cases hread
  | cons tok ts =>
    rw [List.length_cons] at hn
    by_cases hopen : tok = .op '('
    · -- a group: what is inside has one token less, and is a sum
      subst hopen
      rw [readAt_open] at hread
      obtain ⟨⟨w, next⟩, hinner, hclose⟩ := exists_ok_of_bind_eq_ok hread
      rw [closing] at hclose
      split at hclose
      case isTrue hhead =>
        obtain ⟨next, rfl⟩ := List.head?_eq_some_iff.mp hhead
        cases hclose
        obtain ⟨us, e, rfl, hus, he⟩ := h.of_operand .sum ts w _ (by omega) hinner
        exact ⟨_, e, by simp, .group hus, he⟩
      case isFalse => cases hclose
    · by_cases hminus : tok = .op '-'
      · -- a negation: what is negated is again an operand
        subst hminus
        rw [readAt_minus] at hread
        obtain ⟨⟨x, next⟩, hinner, hmap⟩ := exists_ok_of_bind_eq_ok hread
        obtain ⟨y, hneg, heq⟩ := exists_ok_of_map_eq_ok hmap
        cases heq
        obtain ⟨us, e, rfl, hus, he⟩ := h ts x next (by omega) hinner
        refine ⟨_, .neg e, rfl, .neg hus, ?_⟩
        rw [Expr.value, he]
        exact hneg
      · -- a literal is an operand by itself
        rw [readAt_literal hopen hminus] at hread
        obtain ⟨w, hliteral, heq⟩ := exists_ok_of_map_eq_ok hread
        cases heq
        obtain ⟨e, htok, he⟩ := exists_denotes_of_literalOf hliteral
        exact ⟨[tok], e, rfl, .literal htok, he⟩

/-- What is read with a value derives a tree of this value. -/
theorem found_of_readAt {l : Level} {ts rest : List Token} {v : ConstValue}
    (h : readAt l ts = .ok (v, rest)) : Found l ts v rest := by
  have hsound : ∀ n, SoundUpTo .operand n := by
    intro n
    induction n with
    | zero =>
      intro ts v rest hn hread
      rw [List.eq_nil_of_length_eq_zero (Nat.le_zero.mp hn), readAt_nil] at hread
      cases hread
    | succ n ih => exact ih.operand_succ
  exact (hsound ts.length).of_operand l ts v rest (Nat.le_refl _) h

/-! ## Whole expressions -/

/-- The end of an expression. -/
def finishing : ConstValue × List Token → Except Failure ConstValue
  | (v, []) => .ok v
  | (_, tok :: _) => .error (.fault (.unexpected tok.text))

/-- An evaluation reads a sum, after which nothing may be left. -/
theorem evalTokens_eq {ts : List Token} (h : ts ≠ []) :
    evalTokens ts = readAt .sum ts >>= finishing := by
  rw [evalTokens, if_neg (by simpa using h), readAt]
  cases sum ts with
  | error f => rfl
  | ok r =>
    obtain ⟨v, rest, _⟩ := r
    cases rest <;> rfl

/-- The tokens of a tree have its value. -/
theorem Derives.evalTokens_eq {ts : List Token} {e : Expr} (h : Derives .sum ts e) :
    evalTokens ts = e.value := by
  have hend : ∀ v, goOnAt .sum v [] = .ok (v, []) := fun v => goOnAt_of_ne .plus v (by simp)
  have hread := h.readAt_append [] (by simp [Calm])
  simp only [hend, List.append_nil] at hread
  rw [Const.evalTokens_eq h.ne_nil, hread]
  cases e.value <;> rfl

/-- Tokens that have a value are those of a tree. -/
theorem exists_derives_of_evalTokens {ts : List Token} {v : ConstValue}
    (h : evalTokens ts = .ok v) : ∃ e, Derives .sum ts e ∧ e.value = .ok v := by
  have hts : ts ≠ [] := by
    rintro rfl
    cases h
  rw [evalTokens_eq hts] at h
  obtain ⟨⟨w, rest⟩, hread, hend⟩ := exists_ok_of_bind_eq_ok h
  obtain ⟨us, e, rfl, hus, he⟩ := found_of_readAt hread
  cases rest with
  | nil =>
    cases hend
    exact ⟨e, by simpa using hus, he⟩
  | cons tok rest => cases hend

end Generics.Const
