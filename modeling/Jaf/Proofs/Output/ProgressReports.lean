import Jaf.CommandLine
import Jaf.Proofs.Parser.TokenFeed

/-!
# What is told on the way changes nothing

Progress lines, listings, the log and its filter are about what a run tells, and how the run ends does not
depend on them. There is one thing to show. A token listing scans the whole script before it is parsed and
fails at bad text that a parser may never have reached; but a script that parses has no bad text, since
parsing ends at the end of file only. So the listing can change the error of a script that is rejected
anyway, and nothing else.
-/

namespace Jaf

/-- A script that parses is made of tokens. -/
theorem Block.tokens_of_parse {source : String} {b : Block} (h : Block.parse source = .ok b) :
    ∃ ts, Lexeme.tokens source = .ok ts := by
  cases hts : Lexeme.tokens source with
  | ok ts => exact ⟨ts, rfl⟩
  | error bad =>
      rcases Block.parse_of_badText hts with hr | ⟨_, _, hr, _⟩
      · cases hr.symm.trans h
      · cases hr.symm.trans h

/-! ## Compiling -/

namespace Compilation

/-- How compiling a script ends, whatever is told on the way. -/
def ending (version : Nat) (source : String) : Except CompileError Program :=
  match Block.parse source with
  | .error e => .error (.malformed e)
  | .ok tree =>
    let ⟨tree, session, result⟩ := tree.analyse (.ofContainer (.empty version))
    match result with
    | .error e => .error (.rejected e)
    | .ok () => .ok ⟨session.container, tree⟩

/-- A compilation that comes past the token listing ends as it would without one. -/
theorem result_of_listing {cfg : Settings} {source : String} {listing : List Report} (name : String)
    (h : listTokens cfg source = .ok listing) :
    (ofSource cfg name source).result = ending cfg.version source := by
  rw [ofSource, h, ending]
  cases Block.parse source with
  | error e => rfl
  | ok tree =>
      dsimp only
      cases (tree.analyse (.ofContainer (.empty cfg.version))).result with
      | error e => rfl
      | ok u => rfl

theorem listTokens_of_tokens_off {cfg : Settings} (h : cfg.tokens = false) (source : String) :
    listTokens cfg source = .ok [] := by
  rw [listTokens, h]
  rfl

/-- The token listing of a script that can be compiled succeeds. -/
theorem listTokens_of_ending {version : Nat} {source : String} {p : Program}
    (h : ending version source = .ok p) (cfg : Settings) : ∃ listing, listTokens cfg source = .ok listing := by
  have hparse : ∃ b, Block.parse source = .ok b := by
    rw [ending] at h
    cases hparse : Block.parse source with
    | error e => rw [hparse] at h; cases h
    | ok b => exact ⟨b, rfl⟩
  obtain ⟨b, hb⟩ := hparse
  obtain ⟨ts, hts⟩ := Block.tokens_of_parse hb
  rw [listTokens, hts]
  split
  · exact ⟨_, rfl⟩
  · exact ⟨_, rfl⟩

/-- A script compiles under some settings exactly if it compiles without anything told. -/
theorem result_eq_ok_iff {cfg : Settings} {name source : String} {p : Program} :
    (ofSource cfg name source).result = .ok p ↔ ending cfg.version source = .ok p := by
  constructor
  · intro h
    cases hlist : listTokens cfg source with
    | error b => rw [ofSource, hlist] at h; cases h
    | ok listing => rw [← result_of_listing name hlist, h]
  · intro h
    obtain ⟨listing, hlist⟩ := listTokens_of_ending h cfg
    rw [result_of_listing name hlist, h]

theorem ofFile_eq_ok_iff {cfg : Settings} {name : String} {content : Except ReadError String}
    {p : Program} :
    (ofFile cfg name content).result = .ok p ↔
      ∃ source, content = .ok source ∧ ending cfg.version source = .ok p := by
  cases content with
  | error e =>
      constructor
      · intro h; cases h
      · rintro ⟨_, h, _⟩; cases h
  | ok source =>
      constructor
      · intro h; exact ⟨source, rfl, result_eq_ok_iff.mp h⟩
      · rintro ⟨_, hsource, h⟩
        cases hsource
        exact result_eq_ok_iff.mpr h

end Compilation

/-! ## The command line -/

namespace Options

open Compilation

/-- Options that ask for the same result: they differ only in what is told on the way. -/
structure Alike (o o' : Options) : Prop where
  input : o.input = o'.input
  version : o.settings.version = o'.settings.version
  tables : o.tables = o'.tables

theorem run_of_ok {o : Options} (filter : LogFilter) {content : Except ReadError String} {p : Program}
    (h : (ofFile o.settings o.input content).result = .ok p) :
    (o.run filter content).status = 0 ∧
      (o.run filter content).stdout = if o.tables then p.container.dump else "" := by
  unfold run
  dsimp only
  rw [h]
  exact ⟨rfl, rfl⟩

theorem run_of_error {o : Options} (filter : LogFilter) {content : Except ReadError String}
    {e : CompileError} (h : (ofFile o.settings o.input content).result = .error e) :
    (o.run filter content).status = 1 ∧ (o.run filter content).stdout = "" := by
  unfold run
  dsimp only
  rw [h]
  exact ⟨rfl, rfl⟩

theorem Alike.ofFile_eq_ok_iff {o o' : Options} (h : o.Alike o') {content : Except ReadError String}
    {p : Program} : (ofFile o.settings o.input content).result = .ok p ↔
      (ofFile o'.settings o'.input content).result = .ok p := by
  rw [Compilation.ofFile_eq_ok_iff, Compilation.ofFile_eq_ok_iff, h.version]

/-- Options that ask for the same result get the same status and the same output. -/
theorem Alike.run {o o' : Options} (h : o.Alike o') (filter filter' : LogFilter)
    (content : Except ReadError String) :
    (o.run filter content).status = (o'.run filter' content).status ∧
      (o.run filter content).stdout = (o'.run filter' content).stdout := by
  cases hr : (ofFile o.settings o.input content).result with
  | ok p =>
      obtain ⟨hstatus, hstdout⟩ := run_of_ok filter hr
      obtain ⟨hstatus', hstdout'⟩ := run_of_ok filter' (h.ofFile_eq_ok_iff.mp hr)
      rw [hstatus, hstatus', hstdout, hstdout', h.tables]
      exact ⟨rfl, rfl⟩
  | error e =>
      cases hr' : (ofFile o'.settings o'.input content).result with
      | ok p => cases hr.symm.trans (h.ofFile_eq_ok_iff.mpr hr')
      | error e' =>
          obtain ⟨hstatus, hstdout⟩ := run_of_error filter hr
          obtain ⟨hstatus', hstdout'⟩ := run_of_error filter' hr'
          rw [hstatus, hstatus', hstdout, hstdout']
          exact ⟨rfl, rfl⟩

end Options

namespace CommandLine

theorem run_compile {args : List String} {o : Options} (h : Request.ofArgs args = .compile o)
    (log : Option String) (read : String → Except ReadError String) :
    ∃ filter, (run args log read).status = (o.run filter (read o.input)).status ∧
      (run args log read).stdout = (o.run filter (read o.input)).stdout := by
  refine ⟨((log.map LogFilter.ofText).getD (.byDefault o.settings.verbose, [])).1, ?_⟩
  rw [run, h]
  exact ⟨rfl, rfl⟩

/--
**What is told on the way changes nothing.** Two runs of the program on the same input, for the same
container version and with or without the tables, end with the same status and the same output, however
talkative they are, whatever they list, and whatever the log filter is. Compiling under two settings gives
the same program or fails under both; and if neither lists the tokens, it fails with the same error.
-/
theorem outcome_ignores_telling :
    (∀ (args args' : List String) (o o' : Options) (log log' : Option String)
        (read : String → Except ReadError String),
      Request.ofArgs args = .compile o → Request.ofArgs args' = .compile o' → o.Alike o' →
        (run args log read).status = (run args' log' read).status ∧
          (run args log read).stdout = (run args' log' read).stdout) ∧
      ∀ (cfg cfg' : Settings) (name source : String), cfg.version = cfg'.version →
        (∀ p, (Compilation.ofSource cfg name source).result = .ok p ↔
          (Compilation.ofSource cfg' name source).result = .ok p) ∧
        (cfg.tokens = false → cfg'.tokens = false →
          (Compilation.ofSource cfg name source).result =
            (Compilation.ofSource cfg' name source).result) := by
  refine ⟨?_, ?_⟩
  · intro args args' o o' log log' read ho ho' halike
    obtain ⟨filter, hstatus, hstdout⟩ := run_compile ho log read
    obtain ⟨filter', hstatus', hstdout'⟩ := run_compile ho' log' read
    rw [hstatus, hstdout, hstatus', hstdout', ← halike.input]
    exact halike.run filter filter' (read o.input)
  · intro cfg cfg' name source hversion
    refine ⟨fun p => ?_, fun htokens htokens' => ?_⟩
    · rw [Compilation.result_eq_ok_iff, Compilation.result_eq_ok_iff, hversion]
    · rw [Compilation.result_of_listing name (Compilation.listTokens_of_tokens_off htokens source),
        Compilation.result_of_listing name (Compilation.listTokens_of_tokens_off htokens' source), hversion]

/-- A silent run and one that tells all there is to tell, on a script that compiles; and a script with bad
text behind an error of the grammar, compiled under three settings. -/
theorem outcome_ignores_telling_loud :
    (Request.ofArgs ["a", "--dump-tables"] = .compile ⟨"a", ⟨4, false, false, false⟩, true⟩ ∧
        Request.ofArgs ["-v", "--dump-tokens", "--dump-ast", "--dump-tables", "a"] =
          .compile ⟨"a", ⟨4, true, true, true⟩, true⟩ ∧
        (run ["a", "--dump-tables"] none fun _ => .ok "int g=4;").status =
          (run ["-v", "--dump-tokens", "--dump-ast", "--dump-tables", "a"] (some "trace")
            fun _ => .ok "int g=4;").status ∧
        (run ["a", "--dump-tables"] none fun _ => .ok "int g=4;").stdout =
          (run ["-v", "--dump-tokens", "--dump-ast", "--dump-tables", "a"] (some "trace")
            fun _ => .ok "int g=4;").stdout) ∧
      (∀ p, (Compilation.ofSource ⟨4, false, false, false⟩ "a" "4 @").result = .ok p ↔
        (Compilation.ofSource ⟨4, true, false, true⟩ "a" "4 @").result = .ok p) ∧
      (Compilation.ofSource ⟨4, false, false, false⟩ "a" "4 @").result =
        (Compilation.ofSource ⟨4, false, true, true⟩ "a" "4 @").result := by
  have ho : Request.ofArgs ["a", "--dump-tables"] = .compile ⟨"a", ⟨4, false, false, false⟩, true⟩ := by
    decide +kernel
  have ho' : Request.ofArgs ["-v", "--dump-tokens", "--dump-ast", "--dump-tables", "a"] =
      .compile ⟨"a", ⟨4, true, true, true⟩, true⟩ := by
    decide +kernel
  refine ⟨⟨ho, ho', ?_⟩, ?_, ?_⟩
  · exact outcome_ignores_telling.1 _ _ _ _ none (some "trace") _ ho ho' ⟨rfl, rfl, rfl⟩
  · exact (outcome_ignores_telling.2 ⟨4, false, false, false⟩ ⟨4, true, false, true⟩ "a" "4 @" rfl).1
  · exact (outcome_ignores_telling.2 ⟨4, false, false, false⟩ ⟨4, false, true, true⟩ "a" "4 @" rfl).2 rfl rfl

end CommandLine

end Jaf
