import Shuriken.Manifest.Lookahead
import Shuriken.Manifest.Parser

/-!
# Where statements end

A statement of a manifest goes on as long as lines are indented. To see that the next line is not indented,
the parser passes the comments before it.
-/
namespace Shuriken
open List
open LineReader (Inside InsideFor ToEnd ToEndFor Rounds run_bind_eq_ok run_lift_eq_ok run_pure_eq_ok run_loop_eq_ok
  sameLine_of_mem)

namespace Lexer

/-- The next line that is not a comment does not start with a space. -/
def NotIndented (text : Bytes) : Prop := (readToken text).1 ≠ .indent

theorem readToken_congr {text text' : Bytes} (h : skipComments text = skipComments text') :
    readToken text = readToken text' := by
  rw [readToken_eq, readToken_eq, h]

theorem NotIndented.congr {text text' : Bytes} (h : NotIndented text) (hskip : skipComments text = skipComments text') :
    NotIndented text' := by
  rw [NotIndented, ← readToken_congr hskip]
  exact h

/-- Whenever the reader gives `a`, it has read up to some text, or to comments at the start of it. What
is read does not depend on this text as long as it is not indented. With `line`, at least one line has
been taken. -/
def BlockFor {α : Type} (line : Bool) (m : Reader α) (a : α) : Prop := ∀ ⦃text rest⦄, m.run text = .ok (a, rest) →
    ∃ taken after, text = taken ++ after ∧ (line = true → newline ∈ taken) ∧ skipComments rest = skipComments after ∧
      ∀ after', NotIndented after' →
        ∃ rest', m.run (taken ++ after') = .ok (a, rest') ∧ skipComments rest' = skipComments after'

section
variable {α γ : Type} {m : Reader α} {f : α → Reader γ} {a : α} {b : γ} {line : Bool}

theorem BlockFor.of_toEnd (h : ToEndFor newline m a) : BlockFor true m a := by
  intro text rest hrun
  obtain ⟨taken, htext, hnewline, hagain⟩ := h hrun
  exact ⟨taken, rest, htext, fun _ => hnewline, rfl, fun after' _ => ⟨after', hagain after', rfl⟩⟩

theorem BlockFor.bind_inside (hm : Inside newline m) (hf : ∀ a, BlockFor true (f a) b) : BlockFor true (m >>= f) b := by
  intro text rest hrun
  obtain ⟨a, middle, hfirst, hsecond⟩ := run_bind_eq_ok.mp hrun
  obtain ⟨taken, rfl, hagain⟩ := hm a hfirst
  obtain ⟨taken', after, rfl, hnewline, hskip, hagain'⟩ := hf a hsecond
  refine ⟨taken ++ taken', after, (append_assoc _ _ _).symm,
    fun hline => mem_append_right taken (hnewline hline), hskip, fun after' hafter' => ?_⟩
  obtain ⟨rest', hrun', hskip'⟩ := hagain' after' hafter'
  refine ⟨rest', ?_, hskip'⟩
  rw [append_assoc]
  exact run_bind_eq_ok.mpr ⟨a, _, hagain _ (sameLine_of_mem (hnewline rfl) after after'), hrun'⟩

theorem BlockFor.bind_toEnd (hm : ToEnd newline m) (hf : ∀ a, BlockFor false (f a) b) : BlockFor true (m >>= f) b := by
  intro text rest hrun
  obtain ⟨a, middle, hfirst, hsecond⟩ := run_bind_eq_ok.mp hrun
  obtain ⟨taken, rfl, hnewline, hagain⟩ := hm a hfirst
  obtain ⟨taken', after, rfl, -, hskip, hagain'⟩ := hf a hsecond
  refine ⟨taken ++ taken', after, (append_assoc _ _ _).symm, fun _ => mem_append_left taken' hnewline, hskip,
    fun after' hafter' => ?_⟩
  obtain ⟨rest', hrun', hskip'⟩ := hagain' after' hafter'
  refine ⟨rest', ?_, hskip'⟩
  rw [append_assoc]
  exact run_bind_eq_ok.mpr ⟨a, _, hagain _, hrun'⟩

theorem BlockFor.lift_bind {x : Except ManifestError α} (hf : ∀ a, BlockFor line (f a) b) :
    BlockFor line (liftM x >>= f) b := by
  intro text rest hrun
  obtain ⟨a, middle, hfirst, hsecond⟩ := run_bind_eq_ok.mp hrun
  obtain ⟨hx, rfl⟩ := run_lift_eq_ok.mp hfirst
  obtain ⟨taken, after, htext, hnewline, hskip, hagain⟩ := hf a hsecond
  refine ⟨taken, after, htext, hnewline, hskip, fun after' hafter' => ?_⟩
  obtain ⟨rest', hrun', hskip'⟩ := hagain after' hafter'
  exact ⟨rest', run_bind_eq_ok.mpr ⟨a, _, run_lift_eq_ok.mpr ⟨hx, rfl⟩, hrun'⟩, hskip'⟩

theorem BlockFor.bind_lift {g : α → Except ManifestError γ} (hm : ∀ a, BlockFor line m a) :
    BlockFor line (m >>= fun a => (liftM (g a) : Reader γ)) b := by
  intro text rest hrun
  obtain ⟨a, middle, hfirst, hsecond⟩ := run_bind_eq_ok.mp hrun
  obtain ⟨hg, rfl⟩ := run_lift_eq_ok.mp hsecond
  obtain ⟨taken, after, htext, hnewline, hskip, hagain⟩ := hm a hfirst
  refine ⟨taken, after, htext, hnewline, hskip, fun after' hafter' => ?_⟩
  obtain ⟨rest', hrun', hskip'⟩ := hagain after' hafter'
  exact ⟨rest', run_bind_eq_ok.mpr ⟨a, _, hrun', run_lift_eq_ok.mpr ⟨hg, rfl⟩⟩, hskip'⟩

theorem BlockFor.map {g : α → γ} (hm : ∀ a, BlockFor line m a) : BlockFor line (g <$> m) b := by
  rw [map_eq_pure_bind]
  exact BlockFor.bind_lift (g := fun a => .ok (g a)) hm

theorem BlockFor.of_ne (h : ∀ text rest, m.run text ≠ .ok (a, rest)) : BlockFor line m a :=
  fun text rest hrun => absurd hrun (h text rest)

end
end Lexer

open Lexer (Reader newline readToken skipComments skipComments_skipComments BlockFor NotIndented peekToken_inside
  expectToken_inside expectToken_newline readIdent_inside readPath_inside readPath_progress readVarValue_toEnd)

theorem parseLet_toEnd : ToEnd newline parseLet :=
  ToEnd.bind (readIdent_inside _) fun _ => ToEnd.bind (expectToken_inside .equals) fun _ =>
    ToEnd.bind_pure readVarValue_toEnd

section
variable {σ : Type} {step : σ → Bytes × EvalString → Except ManifestError σ} {s s' : σ} {text rest : Bytes}

theorem bindingsRound_toEnd : ToEndFor newline (bindingsRound step s) (.inl s') := by
  refine ToEndFor.bind (peekToken_inside .indent) fun found => ?_
  cases found with
  | true => exact ToEnd.bind_lift parseLet_toEnd _
  | false =>
    intro text rest hrun
    nomatch (run_pure_eq_ok.mp hrun).1

theorem bindingsRound_eq_inr :
    (bindingsRound step s).run text = .ok (.inr s', rest) ↔ s = s' ∧ NotIndented text ∧ skipComments text = rest := by
  rw [bindingsRound, run_bind_eq_ok]
  constructor
  · rintro ⟨found, middle, hpeek, hround⟩
    cases found with
    | true =>
      obtain ⟨binding, _, -, hstep⟩ := run_bind_eq_ok.mp hround
      obtain ⟨_, -, h⟩ := Except.map_eq_ok.mp (run_lift_eq_ok.mp hstep).1
      nomatch h
    | false =>
      obtain ⟨h, rfl⟩ := run_pure_eq_ok.mp hround
      exact ⟨Sum.inr.inj h, Lexer.peekToken_eq_false.mp hpeek⟩
  · rintro ⟨rfl, hpeek⟩
    exact ⟨false, rest, Lexer.peekToken_eq_false.mpr hpeek, rfl⟩

theorem bindingsRound_progress (h : (bindingsRound step s).run text = .ok (.inl s', rest)) :
    rest.length < text.length := by
  obtain ⟨taken, rfl, hnewline, -⟩ := bindingsRound_toEnd h
  have := length_pos_of_mem hnewline
  rw [length_append]
  omega

theorem parseIndented_block : BlockFor false (parseIndented step s) s' := by
  intro text rest hrun
  have hrounds := (run_loop_eq_ok bindingsRound_progress).mp hrun
  have hagain : ∃ taken after, text = taken ++ after ∧ skipComments rest = skipComments after ∧
      ∀ after', NotIndented after' →
        ∃ rest', Rounds (bindingsRound step) s (taken ++ after') s' rest' ∧
          skipComments rest' = skipComments after' := by
    clear hrun
    induction hrounds with
    | stop hround =>
      obtain ⟨rfl, -, rfl⟩ := bindingsRound_eq_inr.mp hround
      refine ⟨[], _, rfl, skipComments_skipComments _, fun after' hafter' => ?_⟩
      exact ⟨skipComments after', .stop (bindingsRound_eq_inr.mpr ⟨rfl, hafter', rfl⟩),
        skipComments_skipComments after'⟩
    | more hround _ ih =>
      obtain ⟨taken', after, rfl, hskip, hagain'⟩ := ih
      obtain ⟨taken, rfl, -, hagain⟩ := bindingsRound_toEnd hround
      refine ⟨taken ++ taken', after, (append_assoc _ _ _).symm, hskip, fun after' hafter' => ?_⟩
      obtain ⟨rest', hrounds', hskip'⟩ := hagain' after' hafter'
      refine ⟨rest', ?_, hskip'⟩
      rw [append_assoc]
      exact .more (hagain _) hrounds'
  obtain ⟨taken, after, htext, hskip, hagain⟩ := hagain
  refine ⟨taken, after, htext, nofun, hskip, fun after' hafter' => ?_⟩
  obtain ⟨rest', hrounds', hskip'⟩ := hagain after' hafter'
  exact ⟨rest', (run_loop_eq_ok bindingsRound_progress).mpr hrounds', hskip'⟩

end

theorem pathsRound_inside (paths : List EvalString) : Inside newline (pathsRound paths) :=
  Inside.bind readPath_inside fun _ => .pure _

theorem pathsRound_progress {paths paths' : List EvalString} {text rest : Bytes}
    (h : (pathsRound paths).run text = .ok (.inl paths', rest)) : rest.length < text.length := by
  obtain ⟨path, middle, hpath, hround⟩ := run_bind_eq_ok.mp h
  obtain ⟨hresult, rfl⟩ := run_pure_eq_ok.mp hround
  refine readPath_progress hpath fun hempty => ?_
  rw [if_pos hempty] at hresult
  nomatch hresult

theorem parsePaths_inside : Inside newline parsePaths :=
  fun _ => InsideFor.loop pathsRound_progress (fun paths _ => pathsRound_inside paths _)
    fun paths => pathsRound_inside paths _

theorem parsePathsAfter_inside (token : Lexer.Token) : Inside newline (parsePathsAfter token) := by
  refine Inside.bind (peekToken_inside token) fun found => ?_
  cases found with
  | true => exact parsePaths_inside
  | false => exact .pure []

namespace ParserState
variable {S : Stater} {env : Nat} {st : ParserState}

theorem parsePool_block (st' : ParserState) : BlockFor true (st.parsePool env) st' :=
  .bind_inside (readIdent_inside _) fun _ => .bind_toEnd expectToken_newline fun _ =>
    .lift_bind fun _ => .bind_lift fun _ => parseIndented_block

theorem parseRule_block (st' : ParserState) : BlockFor true (st.parseRule env) st' :=
  .bind_inside (readIdent_inside _) fun _ => .bind_toEnd expectToken_newline fun _ =>
    .lift_bind fun _ => .bind_lift fun _ => parseIndented_block

theorem parseStepLine_toEnd : ToEnd newline (st.parseStepLine env) :=
  ToEnd.bind parsePaths_inside fun _ => ToEnd.bind (.lift _) fun _ => ToEnd.bind (expectToken_inside .colon) fun _ =>
    ToEnd.bind (readIdent_inside _) fun _ => ToEnd.bind (.lift _) fun _ => ToEnd.bind parsePaths_inside fun _ =>
      ToEnd.bind (parsePathsAfter_inside .pipe) fun _ => ToEnd.bind (parsePathsAfter_inside .pipe2) fun _ =>
        ToEnd.bind_pure expectToken_newline

theorem parseStep_block (st' : ParserState) : BlockFor true (st.parseStep S env) st' :=
  .bind_toEnd parseStepLine_toEnd fun _ => .bind_lift fun _ => parseIndented_block

theorem defaultRound_inside (round : ParserState × EvalString) : Inside newline (defaultRound S env round) :=
  Inside.bind (.lift _) fun _ => Inside.bind readPath_inside fun _ => .pure _

theorem defaultRound_progress {round round' : ParserState × EvalString} {text rest : Bytes}
    (h : (defaultRound S env round).run text = .ok (.inl round', rest)) : rest.length < text.length := by
  obtain ⟨st, middle, hadd, hrest⟩ := run_bind_eq_ok.mp h
  obtain ⟨-, rfl⟩ := run_lift_eq_ok.mp hadd
  obtain ⟨path, middle, hpath, hround⟩ := run_bind_eq_ok.mp hrest
  obtain ⟨hresult, rfl⟩ := run_pure_eq_ok.mp hround
  refine readPath_progress hpath fun hempty => ?_
  rw [if_pos hempty] at hresult
  nomatch hresult

theorem parseDefault_toEnd : ToEnd newline (st.parseDefault S env) := by
  refine ToEnd.bind readPath_inside fun _ => ToEnd.bind (.lift _) fun _ => ToEnd.bind (fun _ => ?_) fun _ =>
    ToEnd.bind_pure expectToken_newline
  exact InsideFor.loop defaultRound_progress (fun round _ => defaultRound_inside round _)
    fun round => defaultRound_inside round _

theorem parseBinding_toEnd : ToEnd newline (st.parseBinding env) := ToEnd.bind_lift parseLet_toEnd

theorem parseFileName_inside : Inside newline (st.parseFileName env) := Inside.bind readPath_inside fun _ => .pure _

end ParserState

section
variable {S : Stater} {env : Nat} {st : ParserState} {token : Lexer.Token} {text start rest : Bytes}

theorem parseToken_start (htoken : token ≠ .error) (start start' : Bytes) :
    parseToken S env st start token = parseToken S env st start' token := by
  cases token with
  | error => exact absurd rfl htoken
  | _ => rfl

theorem parseToken_next (htoken : token ≠ .newline) (st' : ParserState) :
    BlockFor true (parseToken S env st start token) (.next st') := by
  cases token with
  | pool => exact .map ParserState.parsePool_block
  | build => exact .map ParserState.parseStep_block
  | rule => exact .map ParserState.parseRule_block
  | default => exact .map fun st' => .of_toEnd (ParserState.parseDefault_toEnd st')
  | ident => exact .map fun st' => .of_toEnd (ParserState.parseBinding_toEnd st')
  | newline => exact absurd rfl htoken
  | «include» | subninja =>
    refine .of_ne fun text rest hrun => ?_
    obtain ⟨_, -, h⟩ := LineReader.run_map_eq_ok.mp hrun
    nomatch h
  | _ => exact .of_ne nofun

theorem parseToken_load {newScope : Bool} {filename : Path}
    (h : (parseToken S env st start token).run text = .ok (.load newScope filename, rest)) :
    (token = .«include» ∨ token = .subninja) ∧ Inside newline (parseToken S env st start token) := by
  have hnext : ∀ {m : Reader ParserState}, (ParseRound.next <$> m).run text ≠ .ok (.load newScope filename, rest) := by
    intro m hrun
    obtain ⟨_, -, h⟩ := LineReader.run_map_eq_ok.mp hrun
    nomatch h
  cases token with
  | «include» => exact ⟨.inl rfl, Inside.map ParserState.parseFileName_inside⟩
  | subninja => exact ⟨.inr rfl, Inside.map ParserState.parseFileName_inside⟩
  | pool | build | rule | default | ident => exact absurd h hnext
  | _ => nomatch h

theorem parseRound_eq (h : readToken text = (token, start, rest)) :
    (parseRound S env st).run text = (parseToken S env st start token).run
      (if token = .ident then start else rest) := by
  change (parseToken S env st (readToken text).2.1 (readToken text).1).run
    (if (readToken text).1 = .ident then (readToken text).2.1 else (readToken text).2.2) = _
  rw [h]

theorem parseRound_congr {text' : Bytes} (h : skipComments text = skipComments text') :
    (parseRound S env st).run text = (parseRound S env st).run text' := by
  have hread : readToken text = _ := Lexer.readToken_congr h
  rw [parseRound_eq hread, parseRound_eq rfl]

theorem parseRound_notIndented {round : ParseRound} (h : (parseRound S env st).run text = .ok (round, rest)) :
    NotIndented text := by
  intro hindent
  rw [parseRound_eq (Prod.eta (readToken text)).symm, hindent] at h
  nomatch h

theorem parseRound_done (h : (parseRound S env st).run text = .ok (.done, rest)) : (readToken text).1 = .teof := by
  rw [parseRound_eq (Prod.eta (readToken text)).symm] at h
  have hmap : ∀ {α : Type} {m : Reader α} {g : α → ParseRound} {text : Bytes}, (∀ a, g a ≠ .done) →
      (g <$> m).run text ≠ .ok (.done, rest) := by
    intro α m g text hg hrun
    obtain ⟨a, -, ha⟩ := LineReader.run_map_eq_ok.mp hrun
    exact hg a ha
  cases htoken : (readToken text).1 with
  | teof => rfl
  | pool | build | rule | default | ident | «include» | subninja =>
    rw [htoken] at h
    exact absurd h (hmap nofun)
  | _ =>
    rw [htoken] at h
    nomatch h

theorem parseRound_of_teof (h : (readToken text).1 = .teof) :
    (parseRound S env st).run text = .ok (.done, (readToken text).2.2) := by
  rw [parseRound_eq (Prod.eta (readToken text)).symm, h]
  rfl

theorem parseRound_next (st' : ParserState) : BlockFor true (parseRound S env st) (.next st') := by
  intro text rest hrun
  obtain ⟨⟨token, start, middle⟩, hread⟩ : ∃ read, readToken text = read := ⟨_, rfl⟩
  rw [parseRound_eq hread] at hrun
  by_cases hnewline : token = .newline
  · -- an empty line
    subst hnewline
    obtain ⟨hst, rfl⟩ := run_pure_eq_ok.mp hrun
    obtain ⟨taken, htext, hmem, hagain⟩ := Lexer.readToken_spec hread
    refine ⟨taken, middle, htext, fun _ => hmem rfl, rfl, fun after' _ => ⟨after', ?_, rfl⟩⟩
    obtain ⟨start', hread'⟩ := hagain after' (.inl rfl)
    rw [parseRound_eq hread', ← hst]
    rfl
  have herror : token ≠ .error := by
    rintro rfl
    nomatch hrun
  obtain ⟨taken', after, hmiddle, hmem, hskip, hagain'⟩ := parseToken_next hnewline st' hrun
  by_cases hident : token = .ident
  · subst hident
    obtain ⟨taken, htext, hagain⟩ := Lexer.readToken_start hread
    change start = taken' ++ after at hmiddle
    refine ⟨taken ++ taken', after, ?_, fun hline => mem_append_right taken (hmem hline), hskip,
      fun after' hafter' => ?_⟩
    · rw [append_assoc, ← hmiddle]
      exact htext
    · obtain ⟨rest', hrun', hskip'⟩ := hagain' after' hafter'
      have hsame := sameLine_of_mem (hmem rfl) after after'
      rw [← hmiddle] at hsame
      obtain ⟨middle', hread'⟩ := hagain _ hsame
      refine ⟨rest', ?_, hskip'⟩
      rw [append_assoc, parseRound_eq hread']
      exact hrun'
  · rw [if_neg hident] at hmiddle
    obtain ⟨taken, htext, -, hagain⟩ := Lexer.readToken_spec hread
    refine ⟨taken ++ taken', after, ?_, fun hline => mem_append_right taken (hmem hline), hskip,
      fun after' hafter' => ?_⟩
    · rw [append_assoc, ← hmiddle]
      exact htext
    · obtain ⟨rest', hrun', hskip'⟩ := hagain' after' hafter'
      have hsame := sameLine_of_mem (hmem rfl) after after'
      rw [← hmiddle] at hsame
      obtain ⟨start', hread'⟩ := hagain _ (.inr hsame)
      refine ⟨rest', ?_, hskip'⟩
      rw [append_assoc, parseRound_eq hread', if_neg hident, parseToken_start herror start' start]
      exact hrun'

theorem parseRound_load (newScope : Bool) (filename : Path) :
    InsideFor newline (parseRound S env st) (.load newScope filename) := by
  intro text rest hrun
  obtain ⟨⟨token, start, middle⟩, hread⟩ : ∃ read, readToken text = read := ⟨_, rfl⟩
  rw [parseRound_eq hread] at hrun
  obtain ⟨htoken, hinside⟩ := parseToken_load hrun
  have hident : token ≠ .ident := by
    rintro rfl
    exact htoken.elim nofun nofun
  have herror : token ≠ .error := by
    rintro rfl
    exact htoken.elim nofun nofun
  rw [if_neg hident] at hrun
  obtain ⟨taken, htext, -, hagain⟩ := Lexer.readToken_spec hread
  obtain ⟨taken', hmiddle, hagain'⟩ := hinside _ hrun
  refine ⟨taken ++ taken', ?_, fun rest' hsame => ?_⟩
  · rw [append_assoc, ← hmiddle]
    exact htext
  · have hsame' := hsame.append_left taken'
    rw [← hmiddle] at hsame'
    obtain ⟨start', hread'⟩ := hagain _ (.inr hsame')
    rw [append_assoc, parseRound_eq hread', if_neg hident, parseToken_start herror start' start]
    exact hagain' rest' hsame

end
end Shuriken
