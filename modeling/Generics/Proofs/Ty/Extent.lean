import Generics.Proofs.Text.Brackets
import Generics.Proofs.Ty.Readable
import Generics.Proofs.Ty.RoundTrip

/-!
# The extent of a written type

The reader stops where a type ends. The tokens that it used can be read again before anything that may
follow a type, every bracket among them is closed, and all their commas are in brackets. So a text that
stands for a type can be put into a list of arguments as it is, and is found again when the list is split.

## Main results

* `Ty.Reads.extent`: the tokens that something was read from;
* `Token.depthAfter?_of_scan`: brackets can be counted in characters or in tokens;
* `Ty.isSealed_of_parse`: brackets and commas in a text that stands for a type.
-/

namespace Generics

open Text (Mark depthAfter?)

/-- What the token is to the splitting of a text. -/
def Token.mark : Token → Mark
  | .sym c => Text.mark none c
  | _ => .plain

namespace Ty

open Token (Delimits delimits_nil delimits_cons)

/-! ## Brackets and commas -/

/-- The tokens close all of the `depth` brackets that are open before them and every bracket among them,
and all of their commas are in brackets. -/
def Closes (depth : Nat) (ts : List Token) : Prop :=
  Mark.depthAfter? true depth (ts.map Token.mark) = some 0

theorem closes_nil : Closes 0 [] := rfl

/-- The first token takes one step, and the others close what is open after it. -/
theorem Closes.cons {tok : Token} {depth next : Nat} (htok : tok.mark.step true depth = some next)
    {ts : List Token} (h : Closes next ts) : Closes depth (tok :: ts) := by
  unfold Closes
  rw [List.map_cons, Mark.depthAfter?, htok]
  exact h

/-- After the brackets are closed others may be opened and closed. -/
theorem Closes.append {depth : Nat} {ts us : List Token} (h : Closes depth ts) (h' : Closes 0 us) :
    Closes depth (ts ++ us) := by
  unfold Closes at *
  rw [List.map_append, Mark.depthAfter?_append, h]
  exact h'

/-- What leaves no bracket open may stand inside brackets. -/
theorem Closes.inside {depth : Nat} {ts us : List Token} (h : Closes 0 ts) (h' : Closes depth us) :
    Closes depth (ts ++ us) := by
  have hinside : Mark.depthAfter? true (0 + depth) (ts.map Token.mark) = some (0 + depth) :=
    Mark.depthAfter?_add h depth
  rw [Nat.zero_add] at hinside
  unfold Closes
  rw [List.map_append, Mark.depthAfter?_append, hinside]
  exact h'

/-! ## Types -/

/-- How many brackets are open where the item begins. It ends where they are closed. -/
def Item.depth : Item → Nat
  | .type _ | .ret _ => 0
  | .list _ _ | .args _ _ => 1

/-- The tokens `used` are those of the item, whatever follows them. After a closing bracket this may be
anything, after a type it must delimit the type. -/
structure Item.Extent (x : Item) (used : List Token) : Prop where
  closes : Closes x.depth used
  reads : ∀ after, (x.depth = 0 → Delimits after) → Reads (used ++ after) x after

/-- What is read of the front of tokens depends on their first token. -/
theorem startsWith_congr (word : String) {ts us : List Token} (h : us.head? = ts.head?) :
    startsWith word us = startsWith word ts := by
  cases ts with
  | nil => rw [List.head?_eq_none_iff.mp h]
  | cons tok ts =>
    obtain ⟨us', rfl⟩ := List.head?_eq_some_iff.mp h
    cases tok <;> rfl

/-- A word in front of a type stays in front of any other that begins alike. -/
theorem exists_word_front (word : String) (ts : List Token) :
    ∃ front, ts = front ++ afterWord word ts ∧ (∀ us, Closes 0 us → Closes 0 (front ++ us)) ∧
      ∀ us, us.head? = (afterWord word ts).head? → (front ++ us).head? = ts.head? ∧
        afterWord word (front ++ us) = us := by
  by_cases hword : startsWith word ts = true
  · obtain ⟨ts', rfl⟩ := exists_of_startsWith hword
    have hafter (us : List Token) : afterWord word (.ident word :: us) = us := by
      rw [afterWord, if_pos (by simp [startsWith])]
      rfl
    refine ⟨[.ident word], by rw [hafter]; rfl, fun us hus => hus.cons rfl, fun us _ => ?_⟩
    exact ⟨rfl, hafter us⟩
  · have hsame : afterWord word ts = ts := if_neg hword
    refine ⟨[], by rw [hsame]; rfl, fun us hus => hus, fun us hus => ?_⟩
    rw [hsame] at hus
    exact ⟨hus, if_neg (by rwa [List.nil_append, startsWith_congr word hus])⟩

/-- What stands between `&` and a type stays in front of any other that begins alike. -/
theorem exists_ref_front (ts : List Token) :
    ∃ front, ts = front ++ afterWord "mut" (afterRegion ts) ∧ (∀ us, Closes 0 us → Closes 0 (front ++ us)) ∧
      ∀ us, us.head? = (afterWord "mut" (afterRegion ts)).head? →
        regionAt (front ++ us) = regionAt ts ∧
        startsWith "mut" (afterRegion (front ++ us)) = startsWith "mut" (afterRegion ts) ∧
        afterWord "mut" (afterRegion (front ++ us)) = us := by
  obtain ⟨front, hfront, hcloses, hagain⟩ := exists_word_front "mut" (afterRegion ts)
  by_cases hregion : ∃ name, ts.head? = some (.region name)
  · obtain ⟨name, hname⟩ := hregion
    obtain ⟨ts', rfl⟩ := List.head?_eq_some_iff.mp hname
    refine ⟨.region name :: front, congrArg _ hfront, fun us hus => (hcloses us hus).cons rfl, ?_⟩
    intro us hus
    obtain ⟨hhead, hafter⟩ := hagain us hus
    exact ⟨rfl, startsWith_congr "mut" hhead, hafter⟩
  · -- no region is there, and none comes in front of a type that begins alike
    have hsame {us : List Token} (hus : us.head? = ts.head?) :
        regionAt us = .elided ∧ afterRegion us = us := by
      cases us with
      | nil => exact ⟨rfl, rfl⟩
      | cons tok us =>
        cases tok with
        | region name => exact absurd ⟨name, hus.symm⟩ hregion
        | _ => exact ⟨rfl, rfl⟩
    obtain ⟨hat, hts⟩ := hsame rfl
    rw [hts] at hfront hagain ⊢
    refine ⟨front, hfront, hcloses, fun us hus => ?_⟩
    obtain ⟨hhead, hafter⟩ := hagain us hus
    obtain ⟨hat', hus'⟩ := hsame hhead
    rw [hat, hat', hus']
    exact ⟨rfl, startsWith_congr "mut" hhead, hafter⟩

/-- No type is read from no tokens. -/
theorem Item.Extent.ne_nil {used : List Token} {t : Ty} (h : (Item.type t).Extent used) : used ≠ [] := by
  rintro rfl
  have hread := (h.reads [] fun _ => delimits_nil).isRead
  rw [List.nil_append, IsRead, read?_nil] at hread
  cases hread

/-- The tokens that an item was read from are its extent. -/
theorem Reads.extent {ts rest : List Token} {x : Item} (h : Reads ts x rest) :
    ∃ used, ts = used ++ rest ∧ x.Extent used := by
  -- the rule that read the item reads it again, with other tokens behind it
  induction h with
  | @var digits _ _ hid => exact ⟨[.var digits], rfl, closes_nil.cons rfl, fun _ _ => .var hid⟩
  | fn _ _ ihparams ihret =>
    obtain ⟨params, rfl, hparams⟩ := ihparams
    obtain ⟨ret, rfl, hret⟩ := ihret
    refine ⟨.ident "fn" :: .sym '(' :: (params ++ ret), by simp,
      ((hparams.closes.append hret.closes).cons rfl).cons rfl, fun after hafter => ?_⟩
    simp only [List.cons_append, List.append_assoc]
    exact .fn (hparams.reads _ nofun) (hret.reads after hafter)
  | @name name _ hfn _ =>
    refine ⟨[.ident name], rfl, closes_nil.cons rfl, fun after hafter => ?_⟩
    exact .name hfn ((hafter rfl).head?_ne (.sym '<') rfl)
  | @applied name _ _ _ _ hfn _ ihargs =>
    obtain ⟨args, rfl, hargs⟩ := ihargs
    refine ⟨.ident name :: .sym '<' :: args, rfl, (hargs.closes.cons rfl).cons rfl, fun after _ => ?_⟩
    exact .applied hfn (hargs.reads after nofun)
  | paren _ ihelems =>
    obtain ⟨elems, rfl, helems⟩ := ihelems
    refine ⟨.sym '(' :: elems, rfl, helems.closes.cons rfl, fun after _ => ?_⟩
    exact .paren (helems.reads after nofun)
  | @array _ _ _ digits _ _ hsize ihelem =>
    obtain ⟨elem, rfl, helem⟩ := ihelem
    -- the size closes the bracket, and the element ends at the semicolon
    have hsizes : Closes 1 [.sym ';', .number digits, .sym ']'] :=
      ((closes_nil.cons rfl).cons rfl).cons rfl
    refine ⟨.sym '[' :: (elem ++ [.sym ';', .number digits, .sym ']']), by simp,
      (helem.closes.inside hsizes).cons rfl, fun after _ => ?_⟩
    simp only [List.cons_append, List.append_assoc, List.nil_append]
    exact .array (helem.reads _ fun _ => delimits_cons rfl _) hsize
  | @ref ts _ _ _ ihinner =>
    obtain ⟨inner, hts, hinner⟩ := ihinner
    obtain ⟨front, hfront, hcloses, hagain⟩ := exists_ref_front ts
    refine ⟨.sym '&' :: (front ++ inner), ?_, (hcloses inner hinner.closes).cons rfl,
      fun after hafter => ?_⟩
    · rw [List.cons_append, List.append_assoc, ← hts, ← hfront]
    · -- the referent begins as before, so that region and `mut` are found in the same places
      have hhead : (inner ++ after).head? = (afterWord "mut" (afterRegion ts)).head? := by
        rw [hts, List.head?_append_of_ne_nil _ hinner.ne_nil,
          List.head?_append_of_ne_nil _ hinner.ne_nil]
      obtain ⟨hregion, hmut, hafter'⟩ := hagain (inner ++ after) hhead
      have hreads := hinner.reads after hafter
      rw [← hafter'] at hreads
      rw [List.cons_append, List.append_assoc, ← hregion, ← hmut]
      exact .ref hreads
  | @ptr word _ _ _ hword _ ihinner =>
    obtain ⟨inner, rfl, hinner⟩ := ihinner
    refine ⟨.sym '*' :: .ident word :: inner, rfl, (hinner.closes.cons rfl).cons rfl,
      fun after hafter => ?_⟩
    exact .ptr hword (hinner.reads after hafter)
  | never => exact ⟨[.sym '!'], rfl, closes_nil.cons rfl, fun _ _ => .never⟩
  | arrow _ ihret =>
    obtain ⟨ret, rfl, hret⟩ := ihret
    exact ⟨.arrow :: ret, rfl, hret.closes.cons rfl, fun after hafter => .arrow (hret.reads after hafter)⟩
  | noArrow _ =>
    exact ⟨[], rfl, closes_nil, fun after hafter => .noArrow ((hafter rfl).head?_ne .arrow rfl)⟩
  | noElems => exact ⟨[.sym ')'], rfl, closes_nil.cons rfl, fun _ _ => .noElems⟩
  | lastElem _ ihelem =>
    obtain ⟨elem, rfl, helem⟩ := ihelem
    refine ⟨elem ++ [.sym ')'], by simp, helem.closes.inside (closes_nil.cons rfl), fun after _ => ?_⟩
    rw [List.append_assoc]
    exact .lastElem (helem.reads _ fun _ => delimits_cons rfl _)
  | elem _ _ ihelem ihelems =>
    obtain ⟨elem, rfl, helem⟩ := ihelem
    obtain ⟨elems, rfl, helems⟩ := ihelems
    refine ⟨elem ++ .sym ',' :: elems, by simp, helem.closes.inside (helems.closes.cons rfl),
      fun after _ => ?_⟩
    rw [List.append_assoc]
    exact .elem (helem.reads _ fun _ => delimits_cons rfl _) (helems.reads after nofun)
  | noArgs => exact ⟨[.sym '>'], rfl, closes_nil.cons rfl, fun _ _ => .noArgs⟩
  | @lastRegion name _ =>
    exact ⟨[.region name, .sym '>'], rfl, (closes_nil.cons rfl).cons rfl, fun _ _ => .lastRegion⟩
  | @region name _ _ _ _ _ ihargs =>
    obtain ⟨args, rfl, hargs⟩ := ihargs
    refine ⟨.region name :: .sym ',' :: args, rfl, (hargs.closes.cons rfl).cons rfl, fun after _ => ?_⟩
    exact .region (hargs.reads after nofun)
  | lastArg _ iharg =>
    obtain ⟨arg, rfl, harg⟩ := iharg
    refine ⟨arg ++ [.sym '>'], by simp, harg.closes.inside (closes_nil.cons rfl), fun after _ => ?_⟩
    rw [List.append_assoc]
    exact .lastArg (harg.reads _ fun _ => delimits_cons rfl _)
  | arg _ _ iharg ihargs =>
    obtain ⟨arg, rfl, harg⟩ := iharg
    obtain ⟨args, rfl, hargs⟩ := ihargs
    refine ⟨arg ++ .sym ',' :: args, by simp, harg.closes.inside (hargs.closes.cons rfl),
      fun after _ => ?_⟩
    rw [List.append_assoc]
    exact .arg (harg.reads _ fun _ => delimits_cons rfl _) (hargs.reads after nofun)

/-- All tokens of a text that stands for a type are its tokens. -/
theorem extent_of_read? {ts : List Token} {t : Ty} (h : read? ts = some (t, [])) :
    (Item.type t).Extent ts := by
  obtain ⟨used, hused, hextent⟩ := (read?_eq_some_iff.mp h).extent
  rwa [hused, List.append_nil]

/-- Tokens from which all of a type is read are read so before anything that delimits it. -/
theorem read?_append {ts : List Token} {t : Ty} (h : read? ts = some (t, [])) {after : List Token}
    (hafter : Delimits after) : read? (ts ++ after) = some (t, after) :=
  ((extent_of_read? h).reads after fun _ => hafter).isRead

end Ty

/-! ## Brackets in characters and in tokens -/

namespace Token

open Text (isPlain isBlank isDigit depthAfter?_cons depthAfter?_plain)

/-- Brackets, commas and dashes are no blanks and no parts of names. -/
theorem isPlain_of_kind {c : Char} (h : isBlank c = true ∨ isNameChar c = true) : isPlain c = true := by
  by_contra hplain
  have hmem : c ∈ ['(', ')', '[', ']', '<', '>', ',', '-'] := by
    rw [isPlain, Bool.not_eq_true', Bool.not_eq_false] at hplain
    exact List.contains_iff_mem.mp hplain
  have hall : ['(', ')', '[', ']', '<', '>', ',', '-'].all (fun c =>
      (' ' :: ':' :: '-' :: '?' :: '\'' :: symbols).contains c && c ≠ ' ') = true := by decide
  have hkinds := List.all_eq_true.mp hall c hmem
  rw [Bool.and_eq_true, decide_eq_true_eq] at hkinds
  obtain ⟨hmark, hspace⟩ := hkinds
  replace hmark := List.contains_iff_mem.mp hmark
  obtain ⟨hblank, -, -, hname⟩ := kinds_of_mark hmark
  rcases h with h | h
  · exact hspace (hblank.mp h)
  · rw [hname] at h
    cases h

theorem isNameChar_of_isDigit {c : Char} (h : isDigit c = true) : isNameChar c = true := by
  simp [isNameChar, h]

theorem isNameChar_of_isNameStart {c : Char} (h : isNameStart c = true) : isNameChar c = true := by
  rw [isNameStart] at h
  rw [isNameChar, h, Bool.true_or]

/-- Characters of names are plain, however many are taken. -/
theorem all_isPlain_takeWhile {p : Char → Bool} (h : ∀ c, p c = true → isNameChar c = true)
    (cs : List Char) : (cs.takeWhile p).all isPlain = true :=
  List.all_eq_true.mpr fun c hc =>
    isPlain_of_kind (.inr (h c (List.all_eq_true.mp List.all_takeWhile c hc)))

theorem spanName_fst_append_snd (cs : List Char) : (spanName cs).1 ++ (spanName cs).2 = cs := by
  fun_induction spanName cs <;> simp_all

/-- A name at the front of a text is plain. -/
theorem all_isPlain_spanName (cs : List Char) : (spanName cs).1.all isPlain = true := by
  fun_induction spanName cs with
  | case1 => rfl
  | case2 cs ih => simpa [isPlain] using ih
  | case3 c cs _ hname ih =>
    rw [List.all_cons, isPlain_of_kind (.inr hname)]
    exact ih
  | case4 => rfl

/-- Names are plain. -/
theorem all_isPlain_of_isIdent {cs : List Char} (h : isIdent cs = true) :
    cs.all isPlain = true := by
  have htail : ∀ cs, isNameTail cs = true → cs.all isPlain = true := by
    intro cs hcs
    fun_induction isNameTail cs with
    | case1 => rfl
    | case2 cs ih => simpa [isPlain] using ih hcs
    | case3 c cs _ ih =>
      rw [Bool.and_eq_true] at hcs
      rw [List.all_cons, isPlain_of_kind (.inr hcs.1), ih hcs.2]
      rfl
  cases cs with
  | nil => cases h
  | cons c cs =>
    rw [isIdent, Bool.and_eq_true] at h
    rw [List.all_cons, isPlain_of_kind (.inr (isNameChar_of_isNameStart h.1)), htail cs h.2]
    rfl

/-- Regions are plain. -/
theorem all_isPlain_of_isRegion {cs : List Char} (h : isRegion cs = true) :
    cs.all isPlain = true := by
  unfold isRegion at h
  split at h
  · rename_i c cs
    rw [List.all_cons]
    exact List.all_eq_true.mpr fun d hd => isPlain_of_kind (.inr (List.all_eq_true.mp h d hd))
  · cases h

/-- Brackets can be counted in characters or in tokens. -/
theorem depthAfter?_of_scan {cs : List Char} {toks : List Token} (h : scan cs = .ok toks)
    (strict : Bool) (depth : Nat) :
    depthAfter? strict depth none cs = Mark.depthAfter? strict depth (toks.map mark) := by
  -- a token without brackets in front of those that the rest is split into
  have hcons {used rest : List Char} {tok : Token} {toks : List Token} {depth : Nat}
      (h : (do let toks ← scan rest; return tok :: toks) = .ok toks)
      (hused : used.all isPlain = true) (htok : tok.mark = .plain)
      (ih : ∀ {toks}, scan rest = .ok toks → ∀ depth, depthAfter? strict depth none rest =
        Mark.depthAfter? strict depth (toks.map mark)) :
      depthAfter? strict depth none (used ++ rest) =
        Mark.depthAfter? strict depth (toks.map mark) := by
    obtain ⟨rest', hrest, rfl⟩ := exists_of_cons_eq_ok h
    rw [depthAfter?_plain hused strict depth (by simp), ih hrest, List.map_cons, htok]
    rfl
  fun_induction scan cs generalizing toks depth with
  | case1 =>
    obtain rfl := Except.ok.inj h
    rfl
  | case2 c cs hblank ih =>
    have hplain : [c].all isPlain = true := by simp [isPlain_of_kind (.inl hblank)]
    rw [← List.singleton_append, depthAfter?_plain hplain strict depth (by simp)]
    exact ih h depth
  | case3 c cs hblank hname ih =>
    have hplain : (c :: (spanName cs).1).all isPlain = true := by
      rw [List.all_cons, isPlain_of_kind (.inr (isNameChar_of_isNameStart hname)),
        all_isPlain_spanName]
      rfl
    have hsplit : c :: cs = (c :: (spanName cs).1) ++ (spanName cs).2 := by
      rw [List.cons_append, spanName_fst_append_snd]
    rw [hsplit]
    exact hcons h hplain rfl ih
  | case4 c cs hempty => cases h
  | case5 cs hempty hblank hname ih =>
    have hplain : ('\'' :: cs.takeWhile isNameChar).all isPlain = true := by
      rw [List.all_cons, all_isPlain_takeWhile (fun _ h => h)]
      rfl
    rw [← List.takeWhile_append_dropWhile (p := isNameChar) (l := cs), ← List.cons_append]
    exact hcons h hplain rfl ih
  | case6 c cs hblank hname hquote hdigit ih =>
    have hplain : (c :: cs.takeWhile isDigit).all isPlain = true := by
      rw [List.all_cons, isPlain_of_kind (.inr (isNameChar_of_isDigit hdigit)),
        all_isPlain_takeWhile fun _ => isNameChar_of_isDigit]
      rfl
    rw [← List.takeWhile_append_dropWhile (p := isDigit) (l := cs), ← List.cons_append]
    exact hcons h hplain rfl ih
  | case7 => cases h
  | case8 cs hempty _ _ _ _ ih =>
    have hplain : ('?' :: cs.takeWhile isDigit).all isPlain = true := by
      rw [List.all_cons, all_isPlain_takeWhile fun _ => isNameChar_of_isDigit]
      rfl
    rw [← List.takeWhile_append_dropWhile (p := isDigit) (l := cs), ← List.cons_append]
    exact hcons h hplain rfl ih
  | case9 c cs _ _ _ _ _ harrow ih =>
    obtain ⟨rfl, hhead⟩ := harrow
    obtain ⟨cs, rfl⟩ := List.head?_eq_some_iff.mp hhead
    obtain ⟨rest, hrest, rfl⟩ := exists_of_cons_eq_ok h
    show depthAfter? strict depth (some '>') cs = Mark.depthAfter? strict depth (rest.map mark)
    rw [← ih hrest depth]
    exact Text.depthAfter?_congr (by decide) strict depth cs
  | case10 c cs _ _ _ _ _ _ hsym ih =>
    obtain ⟨rest, hrest, rfl⟩ := exists_of_cons_eq_ok h
    have hdash : c ≠ '-' := (kinds_of_mem_symbols (List.contains_iff_mem.mp hsym)).2.2.2.2.2.2.1
    rw [depthAfter?_cons, List.map_cons, Mark.depthAfter?]
    refine congrArg _ (funext fun depth => ?_)
    rw [← ih hrest depth]
    exact Text.depthAfter?_congr (iff_of_false (by simpa using hdash) (by simp)) strict depth cs
  | case11 => cases h

end Token

/-- In a text that stands for a type, every bracket is closed and all commas are in brackets. -/
theorem Ty.isSealed_of_parse {text : String} {t : Ty} (h : parse text = .ok t) :
    Text.isSealed text.toList = true := by
  obtain ⟨toks, hscan, hread⟩ := parse_eq_ok_iff.mp h
  rw [Text.isSealed_iff, Token.depthAfter?_of_scan hscan]
  exact (extent_of_read? hread).closes

end Generics
