import JokerRules.Proofs.Brackets.Lexemes
import JokerRules.Proofs.Brackets.Rules

/-! The table of a firing as a chain of tables. Every output with content has a table of its own,
and each table but the first stands under the key `extra` of the one before. The random blocks run
in the function of the first table, after the code of the output there. -/

namespace JokerRules

open Text Brackets

namespace Output

def fields (o : Output) : List String :=
  match o.body with
  | .fields entries => entries
  | _ => []

def closures (o : Output) : List String :=
  match o.body with
  | .closure code => [code]
  | _ => []

def HasContent (o : Output) : Prop :=
  o.fields ≠ [] ∨ o.closures ≠ [] ∨ o.message ≠ none

instance (o : Output) : Decidable o.HasContent :=
  inferInstanceAs (Decidable (_ ∨ _ ∨ _))

structure Balanced (o : Output) : Prop where
  fields : ∀ field ∈ o.fields, WellBracketed field
  closures : ∀ code ∈ o.closures, WellBracketed code
  message : ∀ message ∈ o.message, WellBracketed message ∧ WellBracketed o.colour

/-- What the table of the output holds if the blocks run in it. -/
def level (o : Output) (blocks : List String) : TableLevel :=
  let status := o.message.toList.flatMap fun text => ["message = " ++ text, "colour = " ++ o.colour]
  ⟨o.fields ++ status, o.closures ++ blocks⟩

end Output

def Bundle.contents (b : Bundle) : List Output :=
  b.outputs.filter (·.HasContent)

/-- What the tables of outputs with content hold, from the outermost one. -/
def chainLevels (blocks : List String) : List Output → List TableLevel
  | [] => [⟨[], blocks⟩]
  | o :: os => o.level blocks :: os.map (·.level [])

namespace TableLevel

/-- The entries of the table of a level, and the function that runs its code, if there is any. -/
def entryLexemes (l : TableLevel) : List (List Lexeme) :=
  l.entries.map lexemes ++
    if l.code = [] then []
    else [lexemes "func = function()" ++ l.code.flatMap lexemes ++ lexemes "return true end"]

/-- The lexemes are a table for each level, and each table but the outermost is an entry of the one
before. -/
inductive Nests : List TableLevel → List Lexeme → Prop
  | innermost (l : TableLevel) : Nests [l] (tableLexemes l.entryLexemes)
  | link (l : TableLevel) {ls : List TableLevel} {inner : List Lexeme} (h : Nests ls inner) :
      Nests (l :: ls) (tableLexemes (l.entryLexemes ++ [lexemes "extra =" ++ inner]))

def texts (l : TableLevel) : List String :=
  l.entries ++ l.code

end TableLevel

theorem TableLevel.ofOutput_eq (o : Output) : ofOutput o = o.level [] := by
  unfold ofOutput Output.level Output.fields Output.closures Output.statusEntries
  cases o.body <;> cases o.message <;> simp

theorem Output.isEmpty_level (o : Output) : (o.level []).isEmpty = !decide o.HasContent := by
  rw [TableLevel.isEmpty, level, Bool.eq_iff_iff]
  cases hm : o.message <;> simp [HasContent, hm]

theorem Bundle.contentLevels_eq (b : Bundle) :
    contentLevels b.outputs = b.contents.map (·.level []) := by
  rw [contentLevels, funext TableLevel.ofOutput_eq, List.filter_map, contents]
  congr 2
  funext o
  simp [Output.isEmpty_level]

theorem length_chainLevels (blocks : List String) (outputs : List Output) :
    (chainLevels blocks outputs).length = max outputs.length 1 := by
  cases outputs <;> simp [chainLevels]

theorem getElem?_chainLevels (blocks : List String) {outputs : List Output} {o : Output} {i : Nat}
    (h : outputs[i]? = some o) :
    (chainLevels blocks outputs)[i]? = some (o.level (if i = 0 then blocks else [])) := by
  cases outputs with
  | nil => simp at h
  | cons first outputs =>
    cases i with
    | zero =>
      obtain rfl : first = o := by simpa using h
      rfl
    | succ i => simpa [chainLevels] using ⟨o, h, rfl⟩

theorem Bundle.firingTable?_eq (b : Bundle) (blocks : List String) :
    firingTable? b.outputs blocks =
      if b.contents = [] ∧ blocks = [] then none
      else TableLevel.chain? (chainLevels blocks b.contents) := by
  unfold firingTable?
  rw [contentLevels_eq]
  cases b.contents with
  | nil => cases blocks <;> simp [chainLevels]
  | cons o os => simp [chainLevels, Output.level]

theorem Output.Balanced.neutralLevel {o : Output} (h : o.Balanced) {blocks : List String}
    (hblocks : ∀ block ∈ blocks, Neutral block) : NeutralLevel (o.level blocks) := by
  have hstatus : ∀ entry ∈ o.message.toList.flatMap fun text =>
      ["message = " ++ text, "colour = " ++ o.colour], Neutral entry := by
    cases hm : o.message with
    | none => simp
    | some text =>
      obtain ⟨htext, hcolour⟩ := h.message text hm
      exact neutral_texts
        [[.fixed _, .hole _ htext.neutral], [.fixed _, .hole _ hcolour.neutral]] rfl
  exact ⟨List.forall_mem_append.mpr ⟨fun field hfield => (h.fields field hfield).neutral, hstatus⟩,
    List.forall_mem_append.mpr ⟨fun code hcode => (h.closures code hcode).neutral, hblocks⟩⟩

theorem neutral_chainLevels {outputs : List Output} (h : ∀ o ∈ outputs, o.Balanced)
    {blocks : List String} (hblocks : ∀ block ∈ blocks, Neutral block) :
    ∀ l ∈ chainLevels blocks outputs, NeutralLevel l := by
  cases outputs with
  | nil => exact List.forall_mem_singleton.mpr ⟨by simp, hblocks⟩
  | cons o os =>
    obtain ⟨ho, hos⟩ := List.forall_mem_cons.mp h
    refine List.forall_mem_cons.mpr ⟨ho.neutralLevel hblocks, fun l hl => ?_⟩
    obtain ⟨p, hp, rfl⟩ := List.mem_map.mp hl
    exact (hos p hp).neutralLevel (by simp)

theorem lexemes_func {code : String} (h : Neutral code) :
    lexemes ("func = " ++ closure code) =
      lexemes "func = function()" ++ lexemes code ++ lexemes "return true end" := by
  have hkey : lexemes ("func = " ++ closure code) = lexemes "func =" ++ lexemes (closure code) := by
    rw [lexemes, String.toList_append]
    rfl
  rw [hkey, lexemes_closure h]
  rfl

theorem lexemes_extra (table : String) :
    lexemes ("extra = " ++ table) = lexemes "extra =" ++ lexemes table := by
  rw [lexemes, String.toList_append]
  rfl

theorem lexemes_render {l : TableLevel} (h : NeutralLevel l) {inner : Option String}
    (hinner : ∀ table ∈ inner, Neutral table) :
    lexemes (l.render inner) = tableLexemes (l.entryLexemes ++
      inner.toList.map fun table => lexemes "extra =" ++ lexemes table) := by
  have hextra : ∀ entry ∈ inner.toList.map fun table => "extra = " ++ table, Neutral entry := by
    intro entry hentry
    obtain ⟨table, htable, rfl⟩ := List.mem_map.mp hentry
    exact neutral_template [.fixed _, .hole _ (hinner table (Option.mem_toList.mp htable))] rfl
  have hentries := List.forall_mem_append.mpr
    ⟨List.forall_mem_append.mpr ⟨h.entries, neutral_func h.code⟩, hextra⟩
  have hfunc : (if l.code.isEmpty then [] else ["func = " ++ closure (unlines l.code)]).map lexemes =
      if l.code = [] then []
      else [lexemes "func = function()" ++ l.code.flatMap lexemes ++ lexemes "return true end"] := by
    by_cases hcode : l.code = []
    · simp [hcode]
    · simp [hcode, lexemes_func (neutral_unlines h.code), lexemes_unlines h.code]
  have hlinks : (inner.toList.map fun table => "extra = " ++ table).map lexemes =
      inner.toList.map fun table => lexemes "extra =" ++ lexemes table := by
    rw [List.map_map]
    exact List.map_congr_left fun table _ => lexemes_extra table
  rw [TableLevel.render, lexemes_table hentries, List.map_append, List.map_append, hfunc, hlinks,
    TableLevel.entryLexemes]

theorem nests_chain {levels : List TableLevel} (h : ∀ l ∈ levels, NeutralLevel l) :
    ∀ table ∈ TableLevel.chain? levels, TableLevel.Nests levels (lexemes table) := by
  induction levels with
  | nil => simp [TableLevel.chain?]
  | cons l levels ih =>
    obtain ⟨hl, hlevels⟩ := List.forall_mem_cons.mp h
    rintro table ⟨⟩
    rw [lexemes_render hl (neutral_levelChain hlevels)]
    cases levels with
    | nil => simpa [TableLevel.chain?] using TableLevel.Nests.innermost l
    | cons m levels => exact .link l (ih hlevels _ rfl)

theorem count_tableLexemes (entries : List (List Lexeme)) {w : Lexeme}
    (hw : w ∉ [['\x7b'], [','], ['\x7d']]) :
    (tableLexemes entries).count w = entries.flatten.count w := by
  simp only [List.mem_cons, List.not_mem_nil, or_false, not_or] at hw
  obtain ⟨hopen, hcomma, hclose⟩ := hw
  have hjoin : ([[',']].intercalate entries).count w = entries.flatten.count w := by
    induction entries with
    | nil => rfl
    | cons entry entries ih =>
      cases entries with
      | nil => simp
      | cons next entries =>
        rw [List.intercalate_cons_cons, List.count_append, List.count_append, ih,
          List.count_singleton, List.flatten_cons (l := entry), List.count_append]
        simp [Ne.symm hcomma]
  rw [tableLexemes, List.count_append, List.count_append, hjoin, List.count_singleton,
    List.count_singleton]
  simp [Ne.symm hopen, Ne.symm hclose]

theorem count_extra_entryLexemes (l : TableLevel) :
    l.entryLexemes.flatten.count "extra".toList =
      (l.texts.flatMap lexemes).count "extra".toList := by
  have hstart : (lexemes "func = function()").count "extra".toList = 0 := by decide
  have hend : (lexemes "return true end").count "extra".toList = 0 := by decide
  rw [TableLevel.texts, List.flatMap_append, List.count_append, TableLevel.entryLexemes,
    List.flatten_append, List.count_append, ← List.flatMap_def]
  by_cases hcode : l.code = []
  · simp [hcode]
  · rw [if_neg hcode, List.flatten_singleton, List.count_append, List.count_append, hstart, hend]
    omega

/-- Apart from those in the texts of the levels, the key `extra` stands once for each link. -/
theorem TableLevel.Nests.count_extra {levels : List TableLevel} {code : List Lexeme}
    (h : Nests levels code) :
    code.count "extra".toList =
      levels.length - 1 + ((levels.flatMap texts).flatMap lexemes).count "extra".toList := by
  induction h with
  | innermost l =>
    rw [count_tableLexemes _ (by decide), count_extra_entryLexemes]
    simp
  | @link l ls inner h ih =>
    have hkey : (lexemes "extra =").count "extra".toList = 1 := by decide
    have hlength : ls.length ≠ 0 := by cases h <;> simp
    rw [count_tableLexemes _ (by decide), List.flatten_append, List.count_append,
      count_extra_entryLexemes, List.flatten_singleton, List.count_append, hkey, ih,
      List.flatMap_cons, List.flatMap_append, List.count_append, List.length_cons]
    omega

namespace Bundle

theorem code?_of_contents_eq_nil {b : Bundle} (h : b.contents = []) (blocks : List String) :
    b.code? blocks =
      if b.hoisted ++ blocks = [] then none else some (unlines (b.hoisted ++ blocks)) := by
  simp [code?, contentLevels_eq, h]

theorem code?_of_contents_ne_nil {b : Bundle} (h : b.contents ≠ []) {blocks : List String}
    {table : String} (htable : firingTable? b.outputs blocks = some table) :
    b.code? blocks = some (unlines (b.hoisted ++ ["return " ++ table])) := by
  simp [code?, contentLevels_eq, h, htable]

/-- The table of a firing is missing only if no output has content and there are no blocks. It is a
chain with a table for each output that has content, in order, and the blocks run in the outermost
one. The code is the statements before the table and the table, or the blocks if no output has
content. -/
theorem table_nests_contents (b : Bundle) (blocks : List String)
    (houtputs : ∀ o ∈ b.outputs, o.Balanced) (hblocks : ∀ block ∈ blocks, WellBracketed block) :
    (firingTable? b.outputs blocks = none ↔ b.contents = [] ∧ blocks = []) ∧
    (∀ table, firingTable? b.outputs blocks = some table → WellBracketed table ∧
      ∃ levels : List TableLevel,
        TableLevel.Nests levels (lexemes table) ∧
        levels.length = max b.contents.length 1 ∧
        (lexemes table).count "extra".toList = max b.contents.length 1 - 1 +
          ((levels.flatMap (·.texts)).flatMap lexemes).count "extra".toList ∧
        (∀ (i : Nat) (o : Output), b.contents[i]? = some o →
          levels[i]? = some (o.level (if i = 0 then blocks else []))) ∧
        (b.contents = [] → levels = [⟨[], blocks⟩])) ∧
    (b.contents ≠ [] → ∃ table, firingTable? b.outputs blocks = some table ∧
      b.code? blocks = some (unlines (b.hoisted ++ ["return " ++ table]))) ∧
    (b.contents = [] → b.code? blocks =
      if b.hoisted ++ blocks = [] then none else some (unlines (b.hoisted ++ blocks))) := by
  have hneutral : ∀ l ∈ chainLevels blocks b.contents, NeutralLevel l :=
    neutral_chainLevels (fun o ho => houtputs o (List.mem_filter.mp ho).1)
      (fun block hblock => (hblocks block hblock).neutral)
  have hsome : ∃ table, TableLevel.chain? (chainLevels blocks b.contents) = some table := by
    cases b.contents <;> exact ⟨_, rfl⟩
  obtain ⟨chain, hchain⟩ := hsome
  have hfiring := b.firingTable?_eq blocks
  rw [hchain] at hfiring
  refine ⟨?_, fun table htable => ?_, fun hne => ?_, fun h => code?_of_contents_eq_nil h blocks⟩
  · rw [hfiring]
    split <;> simp_all
  · obtain ⟨-, heq⟩ := Option.ite_none_left_eq_some.mp (hfiring ▸ htable)
    obtain rfl := Option.some.inj heq
    have hnests := nests_chain hneutral chain hchain
    refine ⟨neutral_iff.mp (neutral_levelChain hneutral chain hchain), _, hnests,
      length_chainLevels blocks b.contents, ?_, fun i o ho => getElem?_chainLevels blocks ho, ?_⟩
    · rw [hnests.count_extra, length_chainLevels]
    · intro hnil
      rw [hnil, chainLevels]
  · have htable : firingTable? b.outputs blocks = some chain := by
      rw [hfiring, if_neg fun h => hne h.1]
    exact ⟨chain, htable, code?_of_contents_ne_nil hne htable⟩

def scoreAndDraw : Bundle where
  prelude := ["local n = #hand"]
  outputs := [⟨.fields ["mult = n"], some "\"Up \x7d\"", "G.C.MULT", [], []⟩,
    { body := .messageOnly }, { body := .closure "draw(1)", hoisted := ["local room = true"] }]

theorem scoreAndDraw_nests :
    (∀ o ∈ scoreAndDraw.outputs, o.Balanced) ∧ WellBracketed "if roll() then win() end" ∧
    ∃ table, firingTable? scoreAndDraw.outputs ["if roll() then win() end"] = some table ∧
      WellBracketed table ∧
      (∃ levels : List TableLevel, TableLevel.Nests levels (lexemes table) ∧ levels.length = 2 ∧
        levels[0]? = some ⟨["mult = n", "message = \"Up \x7d\"", "colour = G.C.MULT"],
          ["if roll() then win() end"]⟩ ∧
        levels[1]? = some ⟨[], ["draw(1)"]⟩) ∧
      scoreAndDraw.code? ["if roll() then win() end"] =
        some (unlines ["local n = #hand", "local room = true", "return " ++ table]) := by
  have houtputs : ∀ o ∈ scoreAndDraw.outputs, o.Balanced := by
    simp only [scoreAndDraw, List.forall_mem_cons]
    refine ⟨⟨?_, ?_, ?_⟩, ⟨?_, ?_, ?_⟩, ⟨?_, ?_, ?_⟩, by simp⟩ <;>
      simp [Output.fields, Output.closures, WellBracketed] <;> decide
  have hblock : WellBracketed "if roll() then win() end" := by
    unfold WellBracketed
    decide
  obtain ⟨-, htables, hcode, -⟩ := table_nests_contents scoreAndDraw ["if roll() then win() end"]
    houtputs (List.forall_mem_singleton.mpr hblock)
  obtain ⟨table, htable, hcode⟩ := hcode (by decide)
  obtain ⟨hbalanced, levels, hnests, hlength, -, hlevels, -⟩ := htables table htable
  exact ⟨houtputs, hblock, table, htable, hbalanced,
    ⟨levels, hnests, hlength.trans (by decide), hlevels 0 _ rfl, hlevels 1 _ rfl⟩, hcode⟩

end Bundle

end JokerRules
