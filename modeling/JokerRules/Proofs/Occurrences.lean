import JokerRules.Proofs.TokenTemplates

/-! Where a random draw stands in the code. A reading of the code from left to right keeps the
blocks that are open, and notes for each occurrence of the call whether it is in a loop. A text is
said to draw as a function of the blocks around it, so that texts that are put together draw one
after the other. -/

namespace JokerRules.Occurrences

open Text Brackets Tokens

/-- The function that draws. -/
def pseudorandom : Token :=
  ['p', 's', 'e', 'u', 'd', 'o', 'r', 'a', 'n', 'd', 'o', 'm']

inductive Block
  | loop
  /-- A branch or a function. -/
  | other
deriving DecidableEq

def opener? (t : Token) : Option Block :=
  if t ∈ [['f', 'o', 'r'], ['w', 'h', 'i', 'l', 'e'], ['r', 'e', 'p', 'e', 'a', 't']] then some .loop
  else if t ∈ [['i', 'f'], ['f', 'u', 'n', 'c', 't', 'i', 'o', 'n']] then some .other
  else none

def isCloser (t : Token) : Bool :=
  t ∈ [['e', 'n', 'd'], ['u', 'n', 't', 'i', 'l']]

structure Place where
  /-- Whether the next token names a field. -/
  isField : Bool
  /-- The open blocks, the innermost first. -/
  blocks : List Block
deriving DecidableEq

namespace Place

def inLoop (p : Place) : Bool :=
  p.blocks.contains .loop

def next (p : Place) (t : Token) : Place where
  isField := !p.isField && (t == ['.'] || t == [':'])
  blocks :=
    if p.isField then p.blocks
    else match opener? t with
      | some b => b :: p.blocks
      | none => if isCloser t then p.blocks.tail else p.blocks

end Place

/-- For each occurrence of the call whether it is in a loop. -/
def occurrencesFrom (call : List Token) (p : Place) : List Token → List Bool
  | [] => []
  | t :: ts =>
    (if !p.isField && call.isPrefixOf (t :: ts) then [p.inLoop] else []) ++
      occurrencesFrom call (p.next t) ts

def occurrences (call text : String) : List Bool :=
  occurrencesFrom (tokens call) ⟨false, []⟩ (tokens text)

example : occurrences "pseudorandom('a', 1)"
    (unlines ["f(x.pseudorandom('a', 1), pseudorandom('a', 1))",
      "for i = 1, n do if p then y = pseudorandom('a', 1) end end"]) = [false, true] := by
  decide +kernel

section Runs

variable {rest : List Token}

/-- Between blocks and fields, the tokens draw as `draws` says and leave the blocks as they were. -/
def Runs (rest ts : List Token) (draws : List Block → List Bool) : Prop :=
  ∀ bs us, occurrencesFrom (pseudorandom :: rest) ⟨false, bs⟩ (ts ++ us) =
    draws bs ++ occurrencesFrom (pseudorandom :: rest) ⟨false, bs⟩ us

/-- Outside fields no token starts a call or changes the blocks, and the last one is no field's
sign. -/
def calm (isField : Bool) : List Token → Bool
  | [] => !isField
  | t :: ts => (isField || (t != pseudorandom && (opener? t).isNone && !isCloser t)) &&
      calm (!isField && (t == ['.'] || t == [':'])) ts

def noDraw : List Block → List Bool :=
  fun _ => []

def oneDraw : List Block → List Bool :=
  fun bs => [bs.contains .loop]

theorem isPrefixOf_cons_ne {t : Token} (h : t ≠ pseudorandom) (ts : List Token) :
    (pseudorandom :: rest).isPrefixOf (t :: ts) = false := by
  simp [List.isPrefixOf, Ne.symm h]

theorem occurrencesFrom_calm {isField : Bool} {ts : List Token} (h : calm isField ts = true)
    (bs : List Block) (us : List Token) :
    occurrencesFrom (pseudorandom :: rest) ⟨isField, bs⟩ (ts ++ us) =
      occurrencesFrom (pseudorandom :: rest) ⟨false, bs⟩ us := by
  induction ts generalizing isField with
  | nil =>
    rw [calm, Bool.not_eq_true'] at h
    rw [h, List.nil_append]
  | cons t ts ih =>
    simp only [calm, Bool.and_eq_true] at h
    obtain ⟨ht, hts⟩ := h
    rw [List.cons_append, occurrencesFrom]
    cases isField with
    | true => simpa [Place.next] using ih hts
    | false =>
      simp only [Bool.false_or, Bool.and_eq_true, bne_iff_ne, ne_eq, Option.isNone_iff_eq_none,
        Bool.not_eq_true'] at ht
      obtain ⟨⟨hcall, hopener⟩, hcloser⟩ := ht
      simpa [Place.next, isPrefixOf_cons_ne hcall, hopener, hcloser] using ih hts

theorem calm_append {isField : Bool} {ts us : List Token} (hts : calm isField ts = true)
    (hus : calm false us = true) : calm isField (ts ++ us) = true := by
  induction ts generalizing isField with
  | nil =>
    rw [calm, Bool.not_eq_true'] at hts
    rwa [hts]
  | cons t ts ih =>
    rw [calm, Bool.and_eq_true] at hts
    rw [List.cons_append, calm, Bool.and_eq_true]
    exact ⟨hts.1, ih hts.2⟩

/-- A literal starts with its quote. -/
theorem calm_quoteWith (d : Delimiter) (s : String) :
    calm false [(quoteWith d.char s).toList] = true := by
  rw [quoteWith, String.toList_ofList]
  cases d <;> simp [calm, opener?, isCloser, pseudorandom, Delimiter.char]

/-- A slot is read as a field, whatever its name. -/
theorem calm_slotPath (name : Token) : calm false (slotPath ++ [name]) = true :=
  rfl

theorem runs_calm {ts : List Token} (h : calm false ts = true) : Runs rest ts noDraw :=
  occurrencesFrom_calm h

theorem Runs.append {ts us : List Token} {f g : List Block → List Bool} (hts : Runs rest ts f)
    (hus : Runs rest us g) : Runs rest (ts ++ us) fun bs => f bs ++ g bs := by
  intro bs vs
  rw [List.append_assoc, hts, hus, List.append_assoc]

/-- The call itself. -/
theorem runs_call (h : calm false rest = true) : Runs rest (pseudorandom :: rest) oneDraw := by
  intro bs us
  have hprefix : (pseudorandom :: rest).isPrefixOf (pseudorandom :: rest ++ us) = true := by
    simp
  rw [List.cons_append, occurrencesFrom, ← List.cons_append, hprefix]
  exact congrArg ([_] ++ ·) (occurrencesFrom_calm h bs us)

theorem ne_of_opener {word t : Token} {b : Block} (hword : opener? word = some b)
    (ht : opener? t = none) : word ≠ t := by
  rintro rfl
  rw [ht] at hword
  cases hword

/-- A block around tokens that draw. -/
theorem Runs.block {word : Token} {b : Block} {opening body : List Token}
    {f : List Block → List Bool} (hword : opener? word = some b) (hopening : calm false opening = true)
    (hbody : Runs rest body f) :
    Runs rest (word :: opening ++ body ++ [['e', 'n', 'd']]) fun bs => f (b :: bs) := by
  have hcall : word ≠ pseudorandom := ne_of_opener hword (by decide)
  have hsign : (word == ['.'] || word == [':']) = false := by
    rw [Bool.or_eq_false_iff, beq_eq_false_iff_ne, beq_eq_false_iff_ne]
    exact ⟨ne_of_opener hword (by decide), ne_of_opener hword (by decide)⟩
  intro bs us
  have hfirst : Place.next ⟨false, bs⟩ word = ⟨false, b :: bs⟩ := by
    simp [Place.next, hsign, hword]
  have hlast : Place.next ⟨false, b :: bs⟩ ['e', 'n', 'd'] = ⟨false, bs⟩ := by
    simp [Place.next, opener?, isCloser]
  have hend : ['e', 'n', 'd'] ≠ pseudorandom := by decide
  rw [List.append_assoc, List.append_assoc, List.cons_append, occurrencesFrom,
    isPrefixOf_cons_ne hcall, hfirst, occurrencesFrom_calm hopening, hbody, List.singleton_append,
    occurrencesFrom, isPrefixOf_cons_ne hend, hlast]
  simp

end Runs

/-- All literals of the text end in it, and its tokens draw as `draws` says. -/
structure Draws (rest : List Token) (text : String) (draws : List Block → List Bool) : Prop where
  complete : Complete text
  runs : Runs rest (tokens text) draws

section Draws

variable {rest : List Token} {text : String} {f : List Block → List Bool}

theorem occurrences_eq {call : String} (hcall : tokens call = pseudorandom :: rest)
    (h : Draws rest text f) : occurrences call text = f [] := by
  have hruns := h.runs [] []
  rw [List.append_nil] at hruns
  rw [occurrences, hcall, hruns]
  exact List.append_nil _

/-- A part of a text; a hole comes with how it draws. -/
abbrev DrawPart (rest : List Token) :=
  Part fun text => { f : List Block → List Bool // Draws rest text f }

namespace DrawPart

def draws : DrawPart rest → List Block → List Bool
  | .fixed _ => noDraw
  | .hole _ h => h.1

def isCalm : DrawPart rest → Bool
  | .fixed cs => calm false (tokensFrom .code cs)
  | .hole _ _ => true

end DrawPart

/-- Whether the fixed parts are calm and no token reaches into the next part. -/
def sound (ps : List (DrawPart rest)) : Bool :=
  fits ps && ps.all DrawPart.isCalm

theorem runs_part {p : DrawPart rest} (h : p.isCalm = true) : Runs rest (tokens p.text) p.draws := by
  cases p with
  | fixed cs =>
    rw [tokens, Part.text, String.toList_ofList]
    exact runs_calm h
  | hole t ht => exact ht.2.runs

theorem draws_template (ps : List (DrawPart rest)) (h : sound ps = true) :
    Draws rest (Part.template ps) fun bs => ps.flatMap (DrawPart.draws · bs) := by
  obtain ⟨hfits, hcalm⟩ := Bool.and_eq_true_iff.mp h
  refine ⟨complete_template (fun _ h => h.2.complete) ps hfits, ?_⟩
  rw [tokens_template (fun _ h => h.2.complete) ps hfits]
  clear h hfits
  induction ps with
  | nil => exact fun bs us => rfl
  | cons p ps ih =>
    rw [List.all_cons, Bool.and_eq_true] at hcalm
    exact (runs_part hcalm.1).append (ih hcalm.2)

theorem draws_fixed {cs : List Char} (h : sound [(.fixed cs : DrawPart rest)] = true) :
    Draws rest (String.ofList cs) noDraw :=
  draws_template [.fixed cs] h

theorem draws_lines (pss : List (List (DrawPart rest))) (h : pss.all sound = true) :
    Draws rest (unlines (pss.map Part.template)) fun bs =>
      pss.flatMap (·.flatMap (DrawPart.draws · bs)) := by
  have hrows : ∀ ps ∈ pss, Draws rest (Part.template ps) fun bs => ps.flatMap (DrawPart.draws · bs) :=
    fun ps hps => draws_template ps (List.all_eq_true.mp h ps hps)
  have hcomplete : ∀ line ∈ pss.map Part.template, Complete line := by
    intro line hline
    obtain ⟨ps, hps, rfl⟩ := List.mem_map.mp hline
    exact (hrows ps hps).complete
  obtain ⟨hlines, htokens⟩ := tokens_unlines hcomplete
  refine ⟨hlines, ?_⟩
  rw [htokens, List.flatMap_map]
  clear h hcomplete hlines htokens
  induction pss with
  | nil => exact fun bs us => rfl
  | cons ps pss ih =>
    obtain ⟨hps, hpss⟩ := List.forall_mem_cons.mp hrows
    exact hps.runs.append (ih hpss)

theorem Draws.indent (h : Draws rest text f) (htext : Neutral text) (depth : Nat) :
    Draws rest (Text.indent depth text) f := by
  refine ⟨complete_of_neutral (htext.indent depth), ?_⟩
  rw [tokens_indent depth htext]
  exact h.runs

/-- A line put together from fixed parts. -/
@[reducible]
def line (css : List (List Char)) : String :=
  Part.template (css.map (.fixed : List Char → Part Complete))

theorem tokens_line {css : List (List Char)}
    (h : fits (css.map (.fixed : List Char → Part Complete)) = true) :
    Complete (line css) ∧ tokens (line css) = css.flatMap (tokensFrom .code) := by
  refine ⟨complete_template (fun _ h => h) _ h, ?_⟩
  rw [line, tokens_template (fun _ h => h) _ h, List.flatMap_map]
  simp only [tokens, String.toList_ofList]

/-- Whether the line opens a block. -/
def opens (b : Block) (css : List (List Char)) : Bool :=
  fits (css.map (.fixed : List Char → Part Complete)) &&
    match css.flatMap (tokensFrom .code) with
    | [] => false
    | word :: words => opener? word == some b && calm false words

/-- Whether the line closes a block. -/
def closes (cs : List Char) : Bool :=
  modeAfter .code cs = .code && tokensFrom .code cs == [['e', 'n', 'd']]

/-- A block with one text in it. -/
theorem draws_block (b : Block) (opening : List (List Char)) (hopening : opens b opening = true)
    (h : Draws rest text f) {closing : List Char} (hclosing : closes closing = true) :
    Draws rest (unlines [line opening, text, String.ofList closing]) fun bs => f (b :: bs) := by
  rw [closes, Bool.and_eq_true, decide_eq_true_eq, beq_iff_eq] at hclosing
  obtain ⟨hfits, hopening⟩ := Bool.and_eq_true_iff.mp hopening
  obtain ⟨hcomplete, hline⟩ := tokens_line hfits
  have hlines : ∀ t ∈ [line opening, text, String.ofList closing], Complete t := by
    simpa [Complete] using ⟨hcomplete, h.complete, hclosing.1⟩
  obtain ⟨hlines, htokens⟩ := tokens_unlines hlines
  refine ⟨hlines, ?_⟩
  rw [htokens]
  cases hwords : opening.flatMap (tokensFrom .code) with
  | nil =>
    rw [hwords] at hopening
    cases hopening
  | cons word words =>
    rw [hwords] at hopening hline
    obtain ⟨hword, hcalm⟩ := Bool.and_eq_true_iff.mp hopening
    have hruns := Runs.block (beq_iff_eq.mp hword) hcalm h.runs
    have hend : tokens (String.ofList closing) = [['e', 'n', 'd']] := by
      rw [tokens, String.toList_ofList, hclosing.2]
    simpa only [List.flatMap_cons, List.flatMap_nil, List.append_nil, List.append_assoc, hline, hend]
      using hruns

/-- A name with an underscore is no word of the language. -/
theorem draws_name {name : String} (hchars : ∀ c ∈ name.toList, isNameChar c = true)
    (hmark : '_' ∈ name.toList) : Draws rest name noDraw := by
  have hne : name ≠ "" := by
    rintro rfl
    cases hmark
  have hother : ∀ word : Token, '_' ∉ word → name.toList ≠ word :=
    fun word hword heq => hword (heq ▸ hmark)
  refine ⟨complete_name hchars, ?_⟩
  rw [tokens_name hne hchars]
  refine runs_calm ?_
  simp [calm, opener?, isCloser, pseudorandom, hother]

theorem draws_quoteWith (d : Delimiter) (s : String) : Draws rest (quoteWith d.char s) noDraw := by
  refine ⟨complete_of_neutral (neutral_quoteWith d s), ?_⟩
  rw [tokens_quoteWith]
  exact runs_calm (calm_quoteWith d s)

theorem draws_read {name : String} (hne : name ≠ "")
    (hchars : ∀ c ∈ name.toList, isNameChar c = true) : Draws rest (Slot.read name) noDraw := by
  refine ⟨complete_read hchars, ?_⟩
  rw [tokens_read hne hchars]
  exact runs_calm (calm_slotPath name.toList)

end Draws

end JokerRules.Occurrences
