import Shuriken.Manifest.Statements

/-!
# Included files

The loop of `parse` reads one statement after the other, and an `include` or `subninja` line with all of the
file that it names.
-/
namespace Shuriken
open Except List
open Lexer (newline skipComments readToken readToken_congr expectToken NotIndented)

/-- The loop of `parse` comes to the token at the start of the last text. The list has the files that have
been loaded on the way. -/
inductive ParseReaches (F : ManifestFileSystem) : Nat → ParserState → Bytes → ParserState → List Path → Bytes → Prop
  | here {env st text} : ParseReaches F env st text st [] (skipComments text)
  | next {env st text st₁ rest st' loaded start} : (parseRound F.toStater env st).run text = .ok (.next st₁, rest) →
      ParseReaches F env st₁ rest st' loaded start → ParseReaches F env st text st' loaded start
  | load {env st text newScope filename rest contents st₁ inner finish rest₁ st' outer start} :
      (parseRound F.toStater env st).run text = .ok (.load newScope filename, rest) →
      F.readFile filename = .ok contents →
      ParseReaches F (st.fileScope env newScope).2 (st.fileScope env newScope).1 contents st₁ inner finish →
      (readToken finish).1 = .teof →
      (expectToken .newline).run rest = .ok ((), rest₁) →
      ParseReaches F env st₁ rest₁ st' outer start →
      ParseReaches F env st text st' (filename :: inner ++ outer) start

section
variable {F : ManifestFileSystem} {env : Nat} {st st' : ParserState} {text start : Bytes} {loaded : List Path}

variable {filename : Path} {rest : Bytes}

theorem ManifestFileSystem.load_eq_ok {contents : Bytes} :
    F.load filename = .ok contents ↔ F.readFile filename = .ok contents :=
  mapError_eq_ok

theorem parseReaches_of_parse {fuel : Nat} {files files' : List Path}
    (h : parse F fuel env st files text = .ok (st', files')) :
    ∃ loaded finish, ParseReaches F env st text st' loaded finish ∧ (readToken finish).1 = .teof ∧
      files' = files ++ loaded := by
  induction fuel generalizing env st files text st' files' with
  | zero => nomatch h
  | succ fuel ih =>
    obtain ⟨⟨round, rest⟩, hround, h⟩ := bind_eq_ok.mp h
    cases round with
    | next st₁ =>
      obtain ⟨loaded, finish, hreaches, hteof, hfiles⟩ := ih h
      exact ⟨loaded, finish, .next hround hreaches, hteof, hfiles⟩
    | done =>
      cases h
      refine ⟨[], skipComments text, .here, ?_, (append_nil files).symm⟩
      rw [readToken_congr (Lexer.skipComments_skipComments text)]
      exact parseRound_done hround
    | load newScope filename =>
      obtain ⟨contents, hcontents, h⟩ := bind_eq_ok.mp h
      obtain ⟨⟨st₁, files₁⟩, hinner, h⟩ := bind_eq_ok.mp h
      obtain ⟨⟨_, rest₁⟩, hline, houter⟩ := bind_eq_ok.mp h
      obtain ⟨inner, finish₁, hreaches₁, hteof₁, rfl⟩ := ih hinner
      obtain ⟨outer, finish, hreaches, hteof, rfl⟩ := ih houter
      refine ⟨filename :: inner ++ outer, finish, ?_, hteof, by simp⟩
      exact .load hround (ManifestFileSystem.load_eq_ok.mp hcontents) hreaches₁ hteof₁ hline hreaches

section
variable (h : ParseReaches F env st text st' loaded start)
include h

theorem ParseReaches.parse (hteof : (readToken start).1 = .teof) :
    ∃ bound, ∀ fuel ≥ bound, ∀ files, parse F fuel env st files text = .ok (st', files ++ loaded) := by
  induction h with
  | @here env st text =>
    rw [readToken_congr (Lexer.skipComments_skipComments text)] at hteof
    refine ⟨1, fun fuel hfuel files => ?_⟩
    obtain ⟨fuel, rfl⟩ := Nat.exists_eq_add_of_le' hfuel
    rw [append_nil]
    exact bind_eq_ok.mpr ⟨_, parseRound_of_teof hteof, rfl⟩
  | next hround _ ih =>
    obtain ⟨bound, hparse⟩ := ih hteof
    refine ⟨bound + 1, fun fuel hfuel files => ?_⟩
    obtain ⟨fuel, rfl⟩ := Nat.exists_eq_add_of_le' (Nat.le_of_add_left_le hfuel)
    exact bind_eq_ok.mpr ⟨_, hround, hparse fuel (Nat.le_of_add_le_add_right hfuel) files⟩
  | load hround hcontents _ hteof₁ hline _ ih₁ ih =>
    obtain ⟨bound₁, hinner⟩ := ih₁ hteof₁
    obtain ⟨bound, houter⟩ := ih hteof
    refine ⟨max bound₁ bound + 1, fun fuel hfuel files => ?_⟩
    obtain ⟨fuel, rfl⟩ := Nat.exists_eq_add_of_le' (Nat.le_of_add_left_le hfuel)
    have hmax := Nat.le_of_add_le_add_right hfuel
    refine bind_eq_ok.mpr ⟨_, hround, ?_⟩
    refine bind_eq_ok.mpr ⟨_, ManifestFileSystem.load_eq_ok.mpr hcontents, ?_⟩
    refine bind_eq_ok.mpr ⟨_, hinner fuel ((Nat.le_max_left _ _).trans hmax) _, ?_⟩
    refine bind_eq_ok.mpr ⟨_, hline, (houter fuel ((Nat.le_max_right _ _).trans hmax) _).trans ?_⟩
    simp

theorem ParseReaches.congr {text' : Bytes}
    (htext : skipComments text = skipComments text') : ParseReaches F env st text' st' loaded start := by
  cases h with
  | here =>
    rw [htext]
    exact .here
  | next hround hrest => exact .next (parseRound_congr htext ▸ hround) hrest
  | load hround hcontents hinner hteof hline hrest =>
    exact .load (parseRound_congr htext ▸ hround) hcontents hinner hteof hline hrest

/-- The text from the last token on can be replaced by another one that is not indented. -/
theorem ParseReaches.replace : ∃ before, skipComments text = before ++ start ∧ ∀ after, NotIndented after →
      NotIndented (before ++ after) ∧ ∀ {st'' more finish}, ParseReaches F env st' after st'' more finish →
        ParseReaches F env st (before ++ after) st'' (loaded ++ more) finish := by
  induction h with
  | here => exact ⟨[], rfl, fun after hafter => ⟨hafter, id⟩⟩
  | @next env st text st₁ rest st' loaded start hround _ ih =>
    obtain ⟨before, hrest, hreplace⟩ := ih
    rw [← parseRound_congr (Lexer.skipComments_skipComments text)] at hround
    obtain ⟨taken, rest', htext, -, hskip, hagain⟩ := parseRound_next st₁ hround
    obtain ⟨comments, hrest', hcomments, -⟩ := Lexer.skipComments_spec rest'
    rw [← hskip, hrest] at hrest'
    refine ⟨taken ++ (comments ++ before), ?_, fun after hafter => ?_⟩
    · rw [htext, hrest', append_assoc, append_assoc]
    · obtain ⟨hindent, hreaches⟩ := hreplace after hafter
      have hsame : skipComments (before ++ after) = skipComments (comments ++ (before ++ after)) := (hcomments _).symm
      obtain ⟨middle, hround', hmiddle⟩ := hagain _ (hindent.congr hsame)
      rw [append_assoc, append_assoc]
      exact ⟨parseRound_notIndented hround', fun hfinish =>
        .next hround' ((hreaches hfinish).congr (hsame.trans hmiddle.symm))⟩
  | @load env st text newScope filename rest contents st₁ inner finish₁ rest₁ st' outer start hround hcontents hinner
      hteof hline _ _ ih =>
    obtain ⟨before, hrest₁, hreplace⟩ := ih
    rw [← parseRound_congr (Lexer.skipComments_skipComments text)] at hround
    obtain ⟨taken, htext, hagain⟩ := parseRound_load newScope filename hround
    obtain ⟨taken', rfl, hnewline, hagain'⟩ := Lexer.expectToken_newline () hline
    obtain ⟨comments, hcomments', hcomments, -⟩ := Lexer.skipComments_spec rest₁
    rw [hrest₁] at hcomments'
    refine ⟨taken ++ (taken' ++ (comments ++ before)), ?_, fun after hafter => ?_⟩
    · rw [htext, hcomments']
      simp only [append_assoc]
    · obtain ⟨-, hreaches⟩ := hreplace after hafter
      have hround' := hagain _ (LineReader.sameLine_of_mem hnewline rest₁ (comments ++ (before ++ after)))
      simp only [append_assoc]
      exact ⟨parseRound_notIndented hround', fun hfinish =>
        .load hround' hcontents hinner hteof (hagain' _) ((hreaches hfinish).congr (hcomments _).symm)⟩

end

theorem not_teof_of_round {round : ParseRound} (h : (parseRound F.toStater env st).run text = .ok (round, rest))
    (hround : round ≠ .done) : (readToken text).1 ≠ .teof := by
  intro hteof
  rw [parseRound_of_teof hteof] at h
  cases h
  exact hround rfl

theorem ParseReaches.eq_of_teof (h : ParseReaches F env st text st' loaded start) (hteof : (readToken text).1 = .teof) :
    st' = st ∧ loaded = [] := by
  cases h with
  | here => exact ⟨rfl, rfl⟩
  | next hround _ => exact absurd hteof (not_teof_of_round hround nofun)
  | load hround _ _ _ _ _ => exact absurd hteof (not_teof_of_round hround nofun)

/-- A run that comes to the end of the file goes on from every token that it comes to. -/
theorem ParseReaches.cut (h : ParseReaches F env st text st' loaded start)
    {st'' : ParserState} {all : List Path} {finish : Bytes}
    (hfinish : ParseReaches F env st text st'' all finish) (hteof : (readToken finish).1 = .teof) :
    ∃ more, all = loaded ++ more ∧ ParseReaches F env st' start st'' more finish := by
  induction h generalizing st'' all finish with
  | @here env st text => exact ⟨all, rfl, hfinish.congr (Lexer.skipComments_skipComments text).symm⟩
  | @next env st text st₁ rest st' loaded start hround _ ih =>
    cases hfinish with
    | here =>
      rw [readToken_congr (Lexer.skipComments_skipComments text)] at hteof
      exact absurd hteof (not_teof_of_round hround nofun)
    | next hround' hrest =>
      cases hround.symm.trans hround'
      exact ih hrest hteof
    | load hround' _ _ _ _ _ => nomatch hround.symm.trans hround'
  | @load env st text newScope filename rest contents st₁ inner finish₁ rest₁ st' outer start hround hcontents _ hteof₁
      hline _ ih₁ ih =>
    cases hfinish with
    | here =>
      rw [readToken_congr (Lexer.skipComments_skipComments text)] at hteof
      exact absurd hteof (not_teof_of_round hround nofun)
    | next hround' _ => nomatch hround.symm.trans hround'
    | load hround' hcontents' hinner' hteof₁' hline' hrest =>
      cases hround.symm.trans hround'
      cases hcontents.symm.trans hcontents'
      cases hline.symm.trans hline'
      -- both runs of the file come to its end, with the same state
      obtain ⟨more₁, rfl, hmore₁⟩ := ih₁ hinner' hteof₁'
      obtain ⟨rfl, rfl⟩ := hmore₁.eq_of_teof hteof₁
      obtain ⟨more, rfl, hmore⟩ := ih hrest hteof
      exact ⟨more, by simp, hmore⟩

theorem Lexer.eq_nil_of_teof {text : Bytes} (h : (Lexer.tokenAt text).1 = .teof) (hnul : 0 ∉ text) : text = [] := by
  have hspaces : ∀ text, (Lexer.afterSpaces text).1 ≠ .teof := by
    intro text
    unfold Lexer.afterSpaces
    split <;> nofun
  have hword : ∀ word, Lexer.Token.ofWord word ≠ .teof := by
    intro word
    unfold Lexer.Token.ofWord
    split_ifs <;> nofun
  unfold Lexer.tokenAt at h
  split at h
  case h_1 => exact absurd h (hspaces _)
  case h_4 => rfl
  case h_5 => exact absurd mem_cons_self hnul
  case h_10 =>
    split_ifs at h
    exact absurd h (hword _)
  all_goals nomatch h

section
variable (h : ParseReaches F env st text st' loaded start)
include h

theorem ParseReaches.start_eq : skipComments start = start := by
  induction h with
  | here => exact Lexer.skipComments_skipComments _
  | next _ _ ih => exact ih
  | load _ _ _ _ _ _ _ ih => exact ih

theorem ParseReaches.notIndented (hteof : (readToken start).1 = .teof) : NotIndented text := by
  cases h with
  | here =>
    intro hindent
    rw [readToken_congr (Lexer.skipComments_skipComments text), hindent] at hteof
    nomatch hteof
  | next hround _ => exact parseRound_notIndented hround
  | load hround _ _ _ _ _ => exact parseRound_notIndented hround

theorem ParseReaches.replace_rest : ∃ before, text = before ++ start ∧ ∀ after, NotIndented after →
      NotIndented (before ++ after) ∧ ∀ {st'' more finish}, ParseReaches F env st' after st'' more finish →
        ParseReaches F env st (before ++ after) st'' (loaded ++ more) finish := by
  obtain ⟨before, hstart, hreplace⟩ := h.replace
  obtain ⟨comments, htext, hcomments, -⟩ := Lexer.skipComments_spec text
  refine ⟨comments ++ before, ?_, fun after hafter => ?_⟩
  · rw [append_assoc, ← hstart]
    exact htext
  · obtain ⟨hindent, hreaches⟩ := hreplace after hafter
    have hsame : skipComments (before ++ after) = skipComments (comments ++ (before ++ after)) := (hcomments _).symm
    rw [append_assoc]
    exact ⟨hindent.congr hsame, fun hfinish => (hreaches hfinish).congr hsame⟩

theorem ParseReaches.append (hteof : (readToken start).1 = .teof)
    (hnul : 0 ∉ text) {after : Bytes} (hafter : NotIndented after) :
    NotIndented (text ++ after) ∧ ∀ {st'' more finish}, ParseReaches F env st' after st'' more finish →
      ParseReaches F env st (text ++ after) st'' (loaded ++ more) finish := by
  obtain ⟨before, htext, hreplace⟩ := h.replace_rest
  have hstart : start = [] := by
    refine Lexer.eq_nil_of_teof ?_ fun hmem => hnul (htext ▸ mem_append_right before hmem)
    rw [← h.start_eq]
    exact hteof
  rw [hstart, append_nil] at htext
  rw [htext]
  exact hreplace after hafter

end

def ManifestFileSystem.write (F : ManifestFileSystem) (path : Path) (contents : Bytes) : ManifestFileSystem where
  toStater := F.toStater
  readFile := Function.update F.readFile path (.ok contents)

theorem ParseReaches.write (h : ParseReaches F env st text st' loaded start) {path : Path} (hpath : path ∉ loaded)
    (contents : Bytes) : ParseReaches (F.write path contents) env st text st' loaded start := by
  induction h with
  | here => exact .here
  | next hround _ ih => exact .next hround (ih hpath)
  | load hround hcontents _ hteof hline _ ih₁ ih =>
    rw [cons_append, mem_cons, mem_append, not_or, not_or] at hpath
    refine .load hround ?_ (ih₁ hpath.2.1) hteof hline (ih hpath.2.2)
    exact (Function.update_of_ne (Ne.symm hpath.1) _ _).trans hcontents

def ParserState.includeLine (env : Nat) (st : ParserState) : Lexer.Reader Path := do
  expectToken .«include»
  let filename ← st.parseFileName env
  expectToken .newline
  return filename

theorem ParserState.includeLine_eq_ok {S : Stater} (h : (st.includeLine env).run text = .ok (filename, rest)) :
    ∃ middle, (parseRound S env st).run text = .ok (.load false filename, middle) ∧
      (expectToken .newline).run middle = .ok ((), rest) := by
  obtain ⟨_, named, htoken, h⟩ := LineReader.run_bind_eq_ok.mp h
  obtain ⟨filename, middle, hname, h⟩ := LineReader.run_bind_eq_ok.mp h
  obtain ⟨_, rest, hline, h⟩ := LineReader.run_bind_eq_ok.mp h
  obtain ⟨rfl, rfl⟩ := LineReader.run_pure_eq_ok.mp h
  obtain ⟨start, hread⟩ := Lexer.expectToken_eq_ok.mp htoken
  refine ⟨middle, ?_, hline⟩
  rw [parseRound_eq hread]
  exact LineReader.run_map_eq_ok.mpr ⟨filename, hname, rfl⟩

theorem ParseReaches.of_includeLine {contents finish : Bytes} (h : ParseReaches F env st text st' loaded finish)
    (hteof : (readToken finish).1 = .teof) (hline : (st.includeLine env).run text = .ok (filename, rest))
    (hcontents : F.readFile filename = .ok contents) (hnul : 0 ∉ contents) :
    ∃ loaded', loaded = filename :: loaded' ∧ NotIndented (contents ++ rest) ∧
      ParseReaches F env st (contents ++ rest) st' loaded' finish := by
  obtain ⟨middle, hround, hnewline⟩ := ParserState.includeLine_eq_ok (S := F.toStater) hline
  cases h with
  | here =>
    rw [readToken_congr (Lexer.skipComments_skipComments text)] at hteof
    exact absurd hteof (not_teof_of_round hround nofun)
  | next hround' _ => nomatch hround.symm.trans hround'
  | @load _ _ _ _ _ _ _ _ inner _ _ _ outer _ hround' hcontents' hinner hteof₁ hnewline' houter =>
    cases hround.symm.trans hround'
    cases hcontents.symm.trans hcontents'
    cases hnewline.symm.trans hnewline'
    obtain ⟨hindent, hreaches⟩ := ParseReaches.append hinner hteof₁ hnul (houter.notIndented hteof)
    exact ⟨inner ++ outer, rfl, hindent, hreaches houter⟩

end

/-- An `include` line means the text of the file. The manifest in which the line has been replaced is read
from a file that is not loaded otherwise. -/
theorem include_is_textual {F : ManifestFileSystem} {fuel : Nat} {paths paths' : Paths} {path path' filename : Path}
    {before line after contents : Bytes} {st : ParserState} {loaded : List Path} {manifest : RawManifest}
    (hmanifest : F.readFile path = .ok (before ++ line ++ after))
    (hparse : parseManifest F fuel paths path = .ok (manifest, paths'))
    (hreaches : ParseReaches F 0 (.initial paths) (before ++ line ++ after) st loaded (line ++ after))
    (hline : (st.includeLine 0).run (line ++ after) = .ok (filename, after))
    (hcontents : F.readFile filename = .ok contents) (hnul : 0 ∉ contents)
    (hpath : path' ∉ manifest.manifestFiles.tail) :
    ∃ fuel' manifestFiles, parseManifest (F.write path' (before ++ contents ++ after)) fuel' paths path' =
      .ok ({ manifest with manifestFiles }, paths') := by
  obtain ⟨text, hload, h⟩ := bind_eq_ok.mp hparse
  obtain ⟨⟨final, files⟩, hloop, h⟩ := bind_eq_ok.mp h
  obtain ⟨manifest, hpost, h⟩ := bind_eq_ok.mp h
  cases h
  cases hmanifest.symm.trans (ManifestFileSystem.load_eq_ok.mp hload)
  -- the run up to the line, and from there on
  obtain ⟨all, finish, hall, hteof, rfl⟩ := parseReaches_of_parse hloop
  obtain ⟨more, rfl, hmore⟩ := hreaches.cut hall hteof
  obtain ⟨more, rfl, hindent, hrest⟩ := hmore.of_includeLine hteof hline hcontents hnul
  obtain ⟨steps, hsteps, hpost⟩ := bind_eq_ok.mp hpost
  cases hpost
  have hwhole : ParseReaches F 0 (.initial paths) (before ++ contents ++ after) final (loaded ++ more) finish := by
    obtain ⟨before', hbefore, hreplace⟩ := hreaches.replace_rest
    rw [append_assoc] at hbefore
    obtain rfl := append_cancel_right hbefore
    rw [append_assoc]
    exact (hreplace _ hindent).2 hrest
  have hnot : path' ∉ loaded ++ more := by
    intro hmem
    have hmem' : path' ∈ loaded ++ filename :: more :=
      mem_append.mpr ((mem_append.mp hmem).imp_right (mem_cons_of_mem filename))
    exact hpath hmem'
  obtain ⟨bound, hloop'⟩ := (hwhole.write hnot (before ++ contents ++ after)).parse hteof
  refine ⟨bound, [path'] ++ (loaded ++ more), ?_⟩
  refine bind_eq_ok.mpr ⟨before ++ contents ++ after, ?_, ?_⟩
  · rw [ManifestFileSystem.load_eq_ok]
    exact Function.update_self path' _ _
  · refine bind_eq_ok.mpr ⟨_, hloop' bound le_rfl _, ?_⟩
    exact bind_eq_ok.mpr ⟨_, bind_eq_ok.mpr ⟨steps, hsteps, rfl⟩, rfl⟩

def beforeLine : Bytes := [120, 32, 61, 32, 52, 10]
def poolFileLine : Bytes := [105, 110, 99, 108, 117, 100, 101, 32, 102, 10]
def afterLine : Bytes := [98, 117, 105, 108, 100, 100, 105, 114, 32, 61, 32, 36, 120, 10]
def poolFile : Bytes := [112, 111, 111, 108, 32, 112, 10, 32, 32, 100, 101, 112, 116, 104, 32, 61, 32, 36, 120, 10]

def poolFiles : ManifestFileSystem where
  stat _ := {}
  lstat _ := {}
  readFile path :=
    if path = [97] then .ok (beforeLine ++ poolFileLine ++ afterLine)
    else if path = [102] then .ok poolFile
    else .error ⟨"No such file or directory", ENOENT⟩

def poolManifest : RawManifest where
  steps := []
  pools := [([99, 111, 110, 115, 111, 108, 101], 1), ([112], 4)]
  buildDir := [52]
  manifestFiles := [[97], [102]]

def stateAtLine : ParserState where
  pools := [([99, 111, 110, 115, 111, 108, 101], 1)]
  scopes := [{ bindings := [([120], [52])], rules := [([112, 104, 111, 110, 121], {})] }]

theorem include_of_pool_is_textual :
    ∃ fuel manifestFiles, parseManifest (poolFiles.write [98] (beforeLine ++ poolFile ++ afterLine)) fuel {} [98] =
      .ok ({ poolManifest with manifestFiles }, {}) := by
  have hparse : parseManifest poolFiles 8 {} [97] = .ok (poolManifest, {}) := rfl
  have hround : (parseRound poolFiles.toStater 0 (.initial {})).run (beforeLine ++ poolFileLine ++ afterLine) =
      .ok (.next stateAtLine, poolFileLine ++ afterLine) := rfl
  have hreaches : ParseReaches poolFiles 0 (.initial {}) (beforeLine ++ poolFileLine ++ afterLine) stateAtLine []
      (poolFileLine ++ afterLine) := .next hround .here
  have hline : (stateAtLine.includeLine 0).run (poolFileLine ++ afterLine) = .ok ([102], afterLine) := rfl
  have hnul : 0 ∉ poolFile := by decide
  exact include_is_textual rfl hparse hreaches hline rfl hnul (by decide)

end Shuriken
