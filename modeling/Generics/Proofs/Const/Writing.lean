import Generics.Proofs.Const.Grammar
import Generics.Proofs.Const.Lexing

/-!
# Written expressions

The ways to write an expression: integers with underscores among their digits, strings in double
quotes, blanks anywhere between these, and parentheses anywhere around an expression. Without
parentheses an asterisk holds its operands more tightly than a plus, and both hold what is written
to their left first.

Evaluation of a text gives the exact value of the expression that is written, or the error for the
first operation that has none in 64 bits. A text that is no expression has no value. The evaluator
remembers values, which changes none of its answers.

## Main results

* `Writes.eval_eq`: a written expression has the value of its tree;
* `exists_writes_of_eval`: a text with a value is a written expression;
* `Evaluator.Faithful.evaluate`: what is remembered is what a new evaluation gives;
* `Evaluator.evaluate_exact`: every evaluator that was only used to evaluate is exact.
-/

namespace Generics.Const

open Text Token

/-- The bytes are a way to write the expression, at a level or held together more tightly. -/
inductive Writes : Level → List UInt8 → Expr → Prop
  /-- A digit, then digits and underscores. -/
  | int {b : UInt8} {bs : List UInt8} {n : Nat} (hn : n < 2 ^ 63) (hb : isDigitByte b = true)
      (hbs : ∀ c ∈ bs, isIntByte c = true)
      (h : Nat.ofDigitChars 10 (((b :: bs).filter isDigitByte).map charOf) 0 = n) :
      Writes .operand (b :: bs) (.int n hn)
  | bool (b : Bool) : Writes .operand (Utf8.ofText (toString b)) (.bool b)
  | string {b c : UInt8} {body bytes : List UInt8} (hb : charOf b = '"') (hc : charOf c = '"')
      (h : Quoted.decode body = some bytes) : Writes .operand (b :: (body ++ [c])) (.string bytes)
  | group {b c : UInt8} {bs : List UInt8} {e : Expr} (hb : charOf b = '(') (hc : charOf c = ')')
      (h : Writes .sum bs e) : Writes .operand (b :: (bs ++ [c])) e
  | neg {b : UInt8} {bs : List UInt8} {e : Expr} (hb : charOf b = '-') (h : Writes .operand bs e) :
      Writes .operand (b :: bs) (.neg e)
  /-- An expression of the level below. -/
  | single {op : Operator} {bs : List UInt8} {e : Expr} (h : Writes op.below bs e) :
      Writes op.level bs e
  /-- Two operands, of which the left one may be made by the same operator. -/
  | binary {op : Operator} {b : UInt8} {as bs : List UInt8} {lhs rhs : Expr}
      (hb : charOf b = op.symbol) (hl : Writes op.level as lhs) (hr : Writes op.below bs rhs) :
      Writes op.level (as ++ b :: bs) (.binary op lhs rhs)
  | blankBefore {l : Level} {b : UInt8} {bs : List UInt8} {e : Expr} (hb : isSpace b = true)
      (h : Writes l bs e) : Writes l (b :: bs) e
  | blankAfter {l : Level} {b : UInt8} {bs : List UInt8} {e : Expr} (hb : isSpace b = true)
      (h : Writes l bs e) : Writes l (bs ++ [b]) e

/-! ## From texts to tokens -/

theorem Operator.symbol_mem_operators (op : Operator) : op.symbol ∈ operators := by
  cases op <;> decide

/-- A written expression is scanned as tokens that derive it. -/
theorem Writes.exists_lexes {l : Level} {bs : List UInt8} {e : Expr} (h : Writes l bs e) :
    ∃ ts, Derives l ts e ∧ Lexes bs ts := by
  induction h with
  | int hn hb hbs h => exact ⟨_, .literal (.int hn h), lexes_int hb hbs⟩
  | bool b => exact ⟨_, .literal (.bool b), lexes_bool b⟩
  | string hb hc h => exact ⟨_, .literal (.string h), lexes_string hb hc h⟩
  | @group b c bs e hb hc _ ih =>
    obtain ⟨ts, hts, hlexes⟩ := ih
    -- the group is read from its end: the closing parenthesis stops whatever is inside
    have hopen : charOf b ∈ operators := by simp [hb, operators]
    have hclose : charOf c ∈ operators := by simp [hc, operators]
    have hgroup := (hlexes.append_mark (mem_marks_of_operator hclose)
      (lexes_nil.operator hclose)).operator hopen
    rw [hb, hc] at hgroup
    exact ⟨_, .group hts, hgroup⟩
  | @neg b bs e hb _ ih =>
    obtain ⟨ts, hts, hlexes⟩ := ih
    have hminus : charOf b ∈ operators := by simp [hb, operators]
    have hneg := hlexes.operator hminus
    rw [hb] at hneg
    exact ⟨_, .neg hts, hneg⟩
  | single _ ih =>
    obtain ⟨ts, hts, hlexes⟩ := ih
    exact ⟨ts, .single hts, hlexes⟩
  | @binary op b as bs lhs rhs hb _ _ ihl ihr =>
    obtain ⟨ts, hts, hlexes⟩ := ihl
    obtain ⟨us, hus, hlexes'⟩ := ihr
    have hop : charOf b ∈ operators := hb ▸ op.symbol_mem_operators
    have hbinary := hlexes.append_mark (mem_marks_of_operator hop) (hlexes'.operator hop)
    rw [hb] at hbinary
    exact ⟨_, .binary hts hus, hbinary⟩
  | blankBefore hb _ ih =>
    obtain ⟨ts, hts, hlexes⟩ := ih
    exact ⟨ts, hts, hlexes.blank hb⟩
  | blankAfter hb _ ih =>
    obtain ⟨ts, hts, hlexes⟩ := ih
    -- the blank ends the last token and adds none
    have hblank := hlexes.append_mark (mem_marks_of_isSpace hb) (lexes_nil.blank hb)
    rw [List.append_nil] at hblank
    exact ⟨ts, hts, hblank⟩

/-! ## From tokens to texts -/

theorem Writes.blanksBefore {l : Level} {blanks bs : List UInt8} {e : Expr} (h : Writes l bs e)
    (hblanks : ∀ b ∈ blanks, isSpace b = true) : Writes l (blanks ++ bs) e := by
  induction blanks with
  | nil => exact h
  | cons b blanks ih =>
    obtain ⟨hb, hblanks⟩ := List.forall_mem_cons.mp hblanks
    exact .blankBefore hb (ih hblanks)

theorem Writes.blanksAfter {l : Level} {blanks bs : List UInt8} {e : Expr} (h : Writes l bs e)
    (hblanks : ∀ b ∈ blanks, isSpace b = true) : Writes l (bs ++ blanks) e := by
  induction blanks generalizing bs with
  | nil => rwa [List.append_nil]
  | cons b blanks ih =>
    obtain ⟨hb, hblanks⟩ := List.forall_mem_cons.mp hblanks
    have hrest := ih (h.blankAfter hb) hblanks
    rwa [List.append_assoc, List.singleton_append] at hrest

theorem Denotes.writes {tok : Token} {e : Expr} {bs : List UInt8} (h : Denotes tok e)
    (hbs : Spelled bs tok) : Writes .operand bs e := by
  cases h with
  | int hn h =>
    cases hbs with
    | int hb hbs => exact .int hn hb hbs h
  | bool b =>
    cases hbs with
    | word => exact .bool b
  | string h =>
    cases hbs with
    | string body hb hc => exact .string hb hc h

/-- Bytes that spell the tokens of an expression are a way to write it. -/
theorem Derives.writes {l : Level} {ts : List Token} {e : Expr} {bs : List UInt8}
    (h : Derives l ts e) (hbs : Spells bs ts) : Writes l bs e := by
  induction h generalizing bs with
  | literal htok =>
    obtain ⟨blanks, as, rest, rfl, hblanks, has, hrest⟩ := hbs.exists_of_cons rfl
    exact ((htok.writes has).blanksAfter (hrest.isSpace_of_nil rfl)).blanksBefore hblanks
  | group _ ih =>
    obtain ⟨blanks, b, rest, rfl, hblanks, hb, hrest⟩ := hbs.exists_of_op
    obtain ⟨as, cs, rfl, has, hcs⟩ := hrest.exists_of_append
    obtain ⟨blanks', c, rest, rfl, hblanks', hc, hrest⟩ := hcs.exists_of_op
    -- blanks before the closing parenthesis belong to what is inside
    have hgroup := Writes.group hb hc ((ih has).blanksAfter hblanks')
    have hpadded := (hgroup.blanksAfter (hrest.isSpace_of_nil rfl)).blanksBefore hblanks
    simpa using hpadded
  | neg _ ih =>
    obtain ⟨blanks, b, rest, rfl, hblanks, hb, hrest⟩ := hbs.exists_of_op
    exact (Writes.neg hb (ih hrest)).blanksBefore hblanks
  | single _ ih => exact .single (ih hbs)
  | binary _ _ ihl ihr =>
    obtain ⟨as, cs, rfl, has, hcs⟩ := hbs.exists_of_append
    obtain ⟨blanks, b, rest, rfl, hblanks, hb, hrest⟩ := hcs.exists_of_op
    -- blanks before the operator belong to the left operand
    have hbinary := Writes.binary hb ((ihl has).blanksAfter hblanks) (ihr hrest)
    rwa [List.append_assoc] at hbinary

/-! ## Values of texts -/

/-- A written expression has the value of its tree. -/
theorem Writes.eval_eq {text : String} {e : Expr} (h : Writes .sum (Utf8.ofText text) e) :
    eval text = e.value := by
  obtain ⟨ts, hts, hlexes⟩ := h.exists_lexes
  rw [eval, hlexes.scan_eq]
  exact hts.evalTokens_eq

/-- A text with a value is a written expression. -/
theorem exists_writes_of_eval {text : String} {v : ConstValue} (h : eval text = .ok v) :
    ∃ e, Writes .sum (Utf8.ofText text) e ∧ e.value = .ok v := by
  obtain ⟨ts, hscan, htokens⟩ := exists_ok_of_bind_eq_ok h
  obtain ⟨e, hts, he⟩ := exists_derives_of_evalTokens htokens
  exact ⟨e, hts.writes (spells_of_scan (mapError_eq_ok_iff.mp hscan)), he⟩

/-- An integer that is the value of a text has 64 bits. -/
theorem fits_of_eval {text : String} {v : ConstValue} (h : eval text = .ok v) : v.Fits := by
  obtain ⟨e, -, hvalue⟩ := exists_writes_of_eval h
  exact (e.meets_value.of_ok hvalue).2.2

/-! ## The evaluator -/

namespace Evaluator

/-- A new evaluator after it was used for some texts. -/
def after (earlier : List String) : Evaluator :=
  earlier.foldl (fun evaluator text => (evaluator.evaluate text).1) {}

/-- Remembered values are those that evaluation gives. -/
def Faithful (evaluator : Evaluator) : Prop :=
  ∀ text v, evaluator.cache.lookup text = some v → eval text = .ok v

/-- A faithful evaluator answers by evaluation, and stays faithful. -/
theorem Faithful.evaluate {evaluator : Evaluator} (h : evaluator.Faithful) (text : String) :
    (evaluator.evaluate text).2 = (eval text).mapError (·.toError text) ∧
      (evaluator.evaluate text).1.Faithful := by
  rw [Evaluator.evaluate]
  split
  case h_1 v hlookup =>
    rw [h text v hlookup]
    exact ⟨rfl, h⟩
  case h_2 =>
    split
    case h_1 v heval =>
      refine ⟨by rw [heval]; rfl, ?_⟩
      -- the new entry is found first, and the old ones are as before
      intro text' v' hlookup
      rw [List.lookup_cons] at hlookup
      split at hlookup
      case h_1 hbeq =>
        cases hlookup
        rw [beq_iff_eq.mp hbeq]
        exact heval
      case h_2 => exact h text' v' hlookup
    case h_2 f heval => exact ⟨by rw [heval]; rfl, h⟩

theorem faithful_after (earlier : List String) : (after earlier).Faithful := by
  -- for any evaluator to start with, since each text leaves another one behind
  have hrun : ∀ evaluator : Evaluator, evaluator.Faithful →
      (earlier.foldl (fun evaluator text => (evaluator.evaluate text).1) evaluator).Faithful := by
    induction earlier with
    | nil => exact fun evaluator h => h
    | cons text earlier ih => exact fun evaluator h => ih _ (h.evaluate text).2
  exact hrun {} fun text v hlookup => by cases hlookup

/-- Whatever was evaluated before, a text has the value that evaluation gives. -/
theorem evaluate_after_eq_ok_iff {earlier : List String} {text : String} {v : ConstValue} :
    ((after earlier).evaluate text).2 = .ok v ↔ eval text = .ok v := by
  rw [((faithful_after earlier).evaluate text).1]
  exact mapError_eq_ok_iff

/-- Evaluation is exact, whatever was evaluated before. A written expression has its value over all
integers if no operation is an offence, and else the error for the first offence. A text with a value
is an expression without offences, written in one of its ways, and an integer value has 64 bits. -/
theorem evaluate_exact (earlier : List String) (text : String) :
    (∀ e, Writes .sum (Utf8.ofText text) e →
      ((∀ o ∈ e.operations, o.offence? = none) →
        ∃ v, e.exactValue? = some v ∧ ((after earlier).evaluate text).2 = .ok v) ∧
      ∀ o, e.firstOffence? = some o →
        ((after earlier).evaluate text).2 = .error (o.error text)) ∧
    ∀ v, ((after earlier).evaluate text).2 = .ok v →
      v.Fits ∧ ∃ e, Writes .sum (Utf8.ofText text) e ∧ (∀ o ∈ e.operations, o.offence? = none) ∧
        e.exactValue? = some v := by
  have hanswer := ((faithful_after earlier).evaluate text).1
  rw [hanswer]
  refine ⟨fun e hwrites => ?_, fun v hv => ?_⟩
  · -- a writing of a tree is evaluated like the tree, which meets its exact value
    have hmeets := e.meets_value
    rw [hwrites.eval_eq]
    refine ⟨fun hnone => ?_, fun o ho => ?_⟩
    · obtain ⟨v, hexact, hvalue, -⟩ := hmeets.of_none (List.findSome?_eq_none_iff.mpr hnone)
      exact ⟨v, hexact, by rw [hvalue]; rfl⟩
    · rw [hmeets.of_some ho, ← o.toError_failure]
      rfl
  · -- a value comes from some tree, and a tree has a value only without offences
    obtain ⟨e, hwrites, hvalue⟩ := exists_writes_of_eval (mapError_eq_ok_iff.mp hv)
    obtain ⟨hnone, hexact, hfits⟩ := e.meets_value.of_ok hvalue
    exact ⟨hfits, e, hwrites, List.findSome?_eq_none_iff.mp hnone, hexact⟩

/-- A product before a sum, with blanks and an underscore, and a sum of more than 64 bits. -/
theorem evaluate_exact_of_sums :
    ((after ["1 + 1", "2 * -3 + 1_0"]).evaluate "2 * -3 + 1_0").2 = .ok (.integer 4) ∧
      ((after []).evaluate "9223372036854775807+1").2 =
        .error (.constEval "9223372036854775807+1" "integer overflow") := by
  constructor
  · -- the text is built like its expression, from the operands outwards
    have htwo : Writes .product [50, 32] (.int 2 (by decide)) :=
      .blankAfter rfl (@Writes.single .times [50] _ (.int _ rfl (by simp) rfl))
    have hthree : Writes .operand [32, 45, 51, 32] (.neg (.int 3 (by decide))) :=
      .blankBefore rfl (@Writes.blankAfter _ _ [45, 51] _ rfl (.neg rfl (.int _ rfl (by simp) rfl)))
    have hten : Writes .product [32, 49, 95, 48] (.int 10 (by decide)) :=
      .blankBefore rfl (@Writes.single .times _ _ (.int _ rfl (by decide +kernel) rfl))
    have hproduct := @Writes.single .plus _ _ (@Writes.binary .times 42 _ _ _ _ rfl htwo hthree)
    have hsum := @Writes.binary .plus 43 _ _ _ _ rfl hproduct hten
    have hbytes : [50, 32] ++ [42, 32, 45, 51, 32] ++ [43, 32, 49, 95, 48] =
        Utf8.ofText "2 * -3 + 1_0" := by decide +kernel
    rw [hbytes] at hsum
    obtain ⟨v, hexact, hanswer⟩ := ((evaluate_exact ["1 + 1", "2 * -3 + 1_0"] _).1 _ hsum).1
      (List.findSome?_eq_none_iff.mp rfl)
    cases hexact
    exact hanswer
  · -- each operand fits, and their sum does not
    have hmax : Writes .product
        [57, 50, 50, 51, 51, 55, 50, 48, 51, 54, 56, 53, 52, 55, 55, 53, 56, 48, 55]
        (.int 9223372036854775807 (by decide)) :=
      @Writes.single .times _ _ (.int _ rfl (by decide +kernel) (by decide +kernel))
    have hone : Writes .product [49] (.int 1 (by decide)) :=
      @Writes.single .times _ _ (.int _ rfl (by simp) rfl)
    have hsum := @Writes.binary .plus 43 _ _ _ _ rfl (@Writes.single .plus _ _ hmax) hone
    have hbytes : [57, 50, 50, 51, 51, 55, 50, 48, 51, 54, 56, 53, 52, 55, 55, 53, 56, 48, 55] ++
        [43, 49] = Utf8.ofText "9223372036854775807+1" := by decide +kernel
    rw [hbytes] at hsum
    exact ((evaluate_exact [] _).1 _ hsum).2 .overflow rfl

end Evaluator

end Generics.Const
