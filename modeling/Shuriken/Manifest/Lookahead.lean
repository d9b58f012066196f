import Shuriken.Manifest.Lexer

/-!
# How far the lexer looks

What the lexer reads does not depend on anything after the line in which it stops, and
a value or a newline that has been read does not depend on what follows at all.
-/
namespace Shuriken
open Except List
namespace Lexer
open LineReader (SameLine Inside ToEnd InsideFor ToEndFor)

theorem eatWhitespace_spec (text : Bytes) : ∃ taken, text = taken ++ eatWhitespace text ∧
    ∀ rest', SameLine newline (eatWhitespace text) rest' → eatWhitespace (taken ++ rest') = rest' := by
  fun_induction eatWhitespace text with
  | case1 rest ih =>
    obtain ⟨taken, htext, hagain⟩ := ih
    exact ⟨32 :: taken, congrArg _ htext, hagain⟩
  | case2 rest ih =>
    obtain ⟨taken, htext, hagain⟩ := ih
    exact ⟨36 :: 13 :: 10 :: taken, congrArg (36 :: 13 :: 10 :: ·) htext, hagain⟩
  | case3 rest ih =>
    obtain ⟨taken, htext, hagain⟩ := ih
    exact ⟨36 :: 10 :: taken, congrArg (36 :: 10 :: ·) htext, hagain⟩
  | case4 text hspace hcrlf hlf =>
    refine ⟨[], rfl, fun rest' hsame => ?_⟩
    -- the other text does not start with white space either
    rw [nil_append, eatWhitespace]
    · exact hsame.not_starts (show newline ∉ [32].dropLast by decide) hspace
    · exact hsame.not_starts (show newline ∉ [36, 13, 10].dropLast by decide) hcrlf
    · exact hsame.not_starts (show newline ∉ [36, 10].dropLast by decide) hlf

variable {text rest : Bytes} {token : Token} {action : EvalAction} {path : Bool} {eval : EvalString}
    {result : EvalString ⊕ EvalString}

theorem afterComment_eq_some (h : afterComment text = some rest) :
    ∃ body, text = body ++ newline :: rest ∧ newline ∉ body ∧
      ∀ rest', afterComment (body ++ newline :: rest') = some rest' := by
  fun_induction afterComment text with
  | case1 | case2 => nomatch h
  | case3 rest =>
    cases h
    exact ⟨[], rfl, nofun, fun _ => rfl⟩
  | case4 c text hzero hnewline ih =>
    obtain ⟨body, rfl, hbody, hagain⟩ := ih h
    refine ⟨c :: body, rfl, not_mem_cons_of_ne_of_not_mem (fun hc => ?_) hbody, fun rest' => ?_⟩
    · exact hnewline hc.symm
    · rw [cons_append, afterComment]
      · exact hagain rest'
      · exact hzero
      · exact hnewline

theorem commentRest_eq_some (h : commentRest text = some rest) :
    ∃ body, text = body ++ newline :: rest ∧ newline ∉ body ∧
      ∀ rest', commentRest (body ++ newline :: rest') = some rest' := by
  fun_induction commentRest text with
  | case1 text ih =>
    obtain ⟨body, rfl, hbody, hagain⟩ := ih h
    exact ⟨32 :: body, rfl, not_mem_cons_of_ne_of_not_mem (by decide) hbody, hagain⟩
  | case2 text =>
    obtain ⟨body, rfl, hbody, hagain⟩ := afterComment_eq_some h
    exact ⟨35 :: body, rfl, not_mem_cons_of_ne_of_not_mem (by decide) hbody, hagain⟩
  | case3 => nomatch h

variable {text' start : Bytes}

theorem commentRest_eq_none (h : commentRest text = none) (hsame : SameLine newline text text') :
    commentRest text' = none := by
  rw [Option.eq_none_iff_forall_ne_some]
  intro rest hrest
  obtain ⟨body, rfl, hbody, hagain⟩ := commentRest_eq_some hrest
  have hline : newline ∉ (body ++ [newline]).dropLast := by rwa [dropLast_concat]
  obtain ⟨rest', rfl⟩ := hsame.symm.starts hline (append_cons body newline rest)
  rw [append_assoc, singleton_append, hagain rest'] at h
  nomatch h

theorem skipFrom_comment (start text : Bytes) :
    skipFrom start .comment text = ((afterComment text).map skipComments).getD start := by
  fun_induction afterComment text with
  | case1 | case2 | case3 => rfl
  | case4 c text hzero hnewline ih =>
    rw [skipFrom]
    · exact ih
    · exact hzero
    · exact hnewline

theorem skipComments_eq (text : Bytes) : skipComments text = ((commentRest text).map skipComments).getD text := by
  have hspaces : ∀ start, skipFrom start .spaces text = ((commentRest text).map skipComments).getD start := by
    intro start
    fun_induction commentRest text with
    | case1 text ih => exact ih
    | case2 text => exact skipFrom_comment start text
    | case3 text hspace hcomment =>
      cases text with
      | nil => rfl
      | cons c text =>
        rw [skipFrom]
        · rfl
        · exact fun hc => hspace text (hc ▸ rfl)
        · exact fun hc => hcomment text (hc ▸ rfl)
  exact hspaces text

theorem skipComments_eq_self (h : commentRest text = none) : skipComments text = text := by
  rw [skipComments_eq, h]
  rfl

theorem skipComments_spec (text : Bytes) : ∃ taken, text = taken ++ skipComments text ∧
    (∀ rest', skipComments (taken ++ rest') = skipComments rest') ∧ commentRest (skipComments text) = none := by
  induction hlength : text.length using Nat.strong_induction_on generalizing text with
  | _ length ih =>
    cases hcomment : commentRest text with
    | none =>
      rw [skipComments_eq_self hcomment]
      exact ⟨[], rfl, fun _ => rfl, hcomment⟩
    | some rest =>
      have hskip := skipComments_eq text
      rw [hcomment] at hskip
      obtain ⟨body, rfl, -, hagain⟩ := commentRest_eq_some hcomment
      obtain ⟨taken, hrest, htaken, hnone⟩ := ih rest.length (by simp at hlength; omega) rest rfl
      refine ⟨body ++ newline :: taken, ?_, fun rest' => ?_, ?_⟩
      · rw [hskip]
        exact congrArg (body ++ newline :: ·) hrest |>.trans (by simp)
      · rw [skipComments_eq, append_assoc, cons_append, hagain]
        exact htaken rest'
      · rw [hskip]
        exact hnone

@[simp] theorem skipComments_skipComments (text : Bytes) : skipComments (skipComments text) = skipComments text := by
  obtain ⟨-, -, -, hnone⟩ := skipComments_spec text
  exact skipComments_eq_self hnone

/-- What a token depends on: a newline on itself, the others on the line that follows too -/
def Looks (token : Token) (rest rest' : Bytes) : Prop := token = .newline ∨ SameLine newline rest rest'

theorem afterSpaces_spec (h : afterSpaces text = (token, rest)) :
    ∃ taken, text = taken ++ rest ∧ (newline ∈ taken ↔ token = .newline) ∧
      ∀ rest', Looks token rest rest' → afterSpaces (taken ++ rest') = (token, rest') := by
  fun_cases afterSpaces text with
  | case1 rest =>
    cases h
    exact ⟨[13, 10], rfl, by decide, fun _ _ => rfl⟩
  | case2 rest =>
    cases h
    exact ⟨[10], rfl, by decide, fun _ _ => rfl⟩
  | case3 _ hcrlf hlf =>
    rw [afterSpaces] at h
    · cases h
      refine ⟨[], rfl, by decide, fun rest' hlooks => ?_⟩
      have hsame := hlooks.resolve_left nofun
      rw [nil_append, afterSpaces]
      · exact hsame.not_starts (show newline ∉ [13, 10].dropLast by decide) hcrlf
      · exact hsame.not_starts (show newline ∉ [10].dropLast by decide) hlf
    · exact hcrlf
    · exact hlf

theorem Looks.append_left {taken rest' : Bytes} (h : Looks token rest rest')
    (htaken : token = .newline → newline ∈ taken) : SameLine newline (taken ++ rest) (taken ++ rest') := by
  rcases h with htoken | hsame
  · exact LineReader.sameLine_of_mem (htaken htoken) rest rest'
  · exact hsame.append_left taken

theorem not_mem_takeWhile {p : UInt8 → Bool} {c : UInt8} (hc : p c = false) (text : Bytes) : c ∉ text.takeWhile p :=
  fun hmem => Bool.false_ne_true (hc.symm.trans (mem_takeWhile_imp hmem))

theorem Token.ofWord_ne_newline (word : Bytes) : Token.ofWord word ≠ .newline := by
  unfold Token.ofWord
  split_ifs <;> decide

theorem tokenAt_varname {c : UInt8} (hc : isVarname c = true) (text : Bytes) :
    tokenAt (c :: text) = (.ofWord ((c :: text).takeWhile isVarname), (c :: text).dropWhile isVarname) := by
  have hne : ∀ b, isVarname b = false → c ≠ b := by
    rintro b hb rfl
    exact Bool.false_ne_true (hb.symm.trans hc)
  rw [tokenAt, if_pos hc]
  · exact hne 32 rfl
  · exact fun _ h => absurd h (hne 13 rfl)
  · exact hne 10 rfl
  · exact hne 0 rfl
  · exact hne 61 rfl
  · exact hne 58 rfl
  · exact fun _ h => absurd h (hne 124 rfl)
  · exact hne 124 rfl

theorem tokenAt_spec (h : tokenAt text = (token, rest)) :
    ∃ taken, text = taken ++ rest ∧ (newline ∈ taken ↔ token = .newline) ∧
      ∀ rest', Looks token rest rest' → tokenAt (taken ++ rest') = (token, rest') := by
  unfold tokenAt at h
  split at h
  case h_1 text =>
    obtain ⟨taken, htext, hnewline, hagain⟩ := afterSpaces_spec h
    refine ⟨32 :: (text.takeWhile (· == 32) ++ taken), ?_, ?_, fun rest' hlooks => ?_⟩
    · rw [cons_append, append_assoc, ← htext, takeWhile_append_dropWhile]
    · have hspaces : newline ∉ text.takeWhile (· == 32) := not_mem_takeWhile rfl text
      rw [mem_cons, mem_append, hnewline]
      simp only [hspaces, false_or, or_iff_right_iff_imp]
      exact fun h => absurd h (by decide)
    · have hsame := hlooks.append_left hnewline.mpr
      rw [← htext] at hsame
      rw [cons_append, append_assoc, tokenAt, hsame.while.2]
      exact hagain rest' hlooks
  case h_2 =>
    cases h
    exact ⟨[13, 10], rfl, by decide, fun _ _ => rfl⟩
  case h_3 =>
    cases h
    exact ⟨[10], rfl, by decide, fun _ _ => rfl⟩
  case h_4 =>
    cases h
    refine ⟨[], rfl, by decide, fun rest' hlooks => ?_⟩
    exact absurd rfl (hlooks.resolve_left nofun).symm.ne_nil
  case h_5 =>
    cases h
    exact ⟨[0], rfl, by decide, fun _ _ => rfl⟩
  case h_6 =>
    cases h
    exact ⟨[61], rfl, by decide, fun _ _ => rfl⟩
  case h_7 =>
    cases h
    exact ⟨[58], rfl, by decide, fun _ _ => rfl⟩
  case h_8 =>
    cases h
    exact ⟨[124, 124], rfl, by decide, fun _ _ => rfl⟩
  case h_9 hpipe =>
    cases h
    refine ⟨[124], rfl, by decide, fun rest' hlooks => ?_⟩
    rw [singleton_append, tokenAt]
    exact (hlooks.resolve_left nofun).not_starts (show newline ∉ [124].dropLast by decide) hpipe
  case h_10 c text hspace hcrlf hlf hnul hequals hcolon hpipe2 hpipe =>
    split at h
    · next hc =>
      cases h
      refine ⟨(c :: text).takeWhile isVarname, takeWhile_append_dropWhile.symm,
        iff_of_false (not_mem_takeWhile rfl _) (Token.ofWord_ne_newline _), fun rest' hlooks => ?_⟩
      obtain ⟨htake, hdrop⟩ := (hlooks.resolve_left (Token.ofWord_ne_newline _)).while
      rw [takeWhile_cons_of_pos hc, cons_append] at htake hdrop ⊢
      rw [tokenAt_varname hc, htake, hdrop]
    · next hc =>
      cases h
      refine ⟨[c], rfl, iff_of_false (fun hmem => hlf (mem_singleton.mp hmem).symm) nofun, fun rest' hlooks => ?_⟩
      have hsame := hlooks.resolve_left nofun
      rw [singleton_append, tokenAt, if_neg hc]
      · exact hspace
      · exact fun more hcr => hsame.not_starts (show newline ∉ [10].dropLast by decide) (hcrlf · hcr) more
      · exact hlf
      · exact hnul
      · exact hequals
      · exact hcolon
      · exact fun _ hbar => absurd hbar hpipe
      · exact hpipe

theorem readToken_eq (text : Bytes) : readToken text = ((tokenAt (skipComments text)).1, skipComments text,
      if (tokenAt (skipComments text)).1 = .newline ∨ (tokenAt (skipComments text)).1 = .teof
        then (tokenAt (skipComments text)).2 else eatWhitespace (tokenAt (skipComments text)).2) := rfl

theorem readToken_append {taken start' : Bytes} (htaken : ∀ rest', skipComments (taken ++ rest') = skipComments rest')
    (hstart : commentRest start = none) (hsame : SameLine newline start start')
    (htoken : tokenAt start' = (token, rest)) : readToken (taken ++ start') =
      (token, start', if token = .newline ∨ token = .teof then rest else eatWhitespace rest) := by
  rw [readToken_eq, htaken, skipComments_eq_self (commentRest_eq_none hstart hsame), htoken]

theorem tokenAt_sameLine (hsame : SameLine newline text text') : (tokenAt text').1 = (tokenAt text).1 := by
  have hother : ∀ {text text' : Bytes}, SameLine newline text text' → (tokenAt text).1 ≠ .newline →
      (tokenAt text').1 = (tokenAt text).1 := by
    intro text text' hsame htoken
    obtain ⟨taken, htext, hnewline, hagain⟩ := tokenAt_spec (Prod.eta (tokenAt text)).symm
    rw [htext] at hsame
    obtain ⟨rest', rfl, hrest⟩ := hsame.of_append (fun hmem => htoken (hnewline.mp hmem))
    rw [hagain rest' (.inr hrest)]
  by_cases htoken : (tokenAt text).1 = .newline
  · by_contra hne
    exact hne (hother hsame.symm (htoken ▸ hne)).symm
  · exact hother hsame htoken

theorem readToken_start (h : readToken text = (token, start, rest)) : ∃ taken, text = taken ++ start ∧
      ∀ start', SameLine newline start start' → ∃ rest', readToken (taken ++ start') = (token, start', rest') := by
  obtain ⟨taken, htext, htaken, hnone⟩ := skipComments_spec text
  rw [readToken_eq, Prod.mk.injEq, Prod.mk.injEq] at h
  obtain ⟨rfl, rfl, -⟩ := h
  refine ⟨taken, htext, fun start' hsame => ?_⟩
  have hread := readToken_append htaken hnone hsame
    (show tokenAt start' = ((tokenAt start').1, (tokenAt start').2) from rfl)
  rw [tokenAt_sameLine hsame] at hread
  exact ⟨_, hread⟩

theorem readToken_spec (h : readToken text = (token, start, rest)) :
    ∃ taken, text = taken ++ rest ∧ (token = .newline → newline ∈ taken) ∧
      ∀ rest', Looks token rest rest' → ∃ start', readToken (taken ++ rest') = (token, start', rest') := by
  obtain ⟨comments, htext, hcomments, hnone⟩ := skipComments_spec text
  obtain ⟨taken, hstart, hnewline, hagain⟩ := tokenAt_spec (Prod.eta (tokenAt (skipComments text))).symm
  rw [readToken_eq, Prod.mk.injEq, Prod.mk.injEq] at h
  obtain ⟨rfl, -, hrest⟩ := h
  -- once more with another rest after the token
  have hread : ∀ rest', Looks (tokenAt (skipComments text)).1 (tokenAt (skipComments text)).2 rest' → _ :=
    fun rest' hlooks => readToken_append hcomments hnone
      (Eq.subst (motive := fun start => SameLine newline start (taken ++ rest')) hstart.symm
        (hlooks.append_left hnewline.mpr)) (hagain rest' hlooks)
  split at hrest
  · next hkind =>
    subst hrest
    refine ⟨comments ++ taken, ?_, fun htoken => ?_, fun rest' hlooks => ⟨taken ++ rest', ?_⟩⟩
    · rw [append_assoc, ← hstart]
      exact htext
    · exact mem_append_right comments (hnewline.mpr htoken)
    · rw [append_assoc, hread rest' hlooks, if_pos hkind]
  · next hkind =>
    subst hrest
    obtain ⟨blanks, hblanks, heat⟩ := eatWhitespace_spec (tokenAt (skipComments text)).2
    have hother : (tokenAt (skipComments text)).1 ≠ .newline := fun htoken => hkind (.inl htoken)
    refine ⟨comments ++ taken ++ blanks, ?_, fun htoken => absurd htoken hother, fun rest' hlooks => ?_⟩
    · rw [append_assoc, ← hblanks, append_assoc, ← hstart]
      exact htext
    · have hsame := hlooks.resolve_left hother
      have hsame' := hsame.append_left blanks
      rw [← hblanks] at hsame'
      refine ⟨taken ++ (blanks ++ rest'), ?_⟩
      rw [append_assoc, append_assoc, hread (blanks ++ rest') (.inr hsame'), if_neg hkind, heat rest' hsame]

theorem expectToken_eq_ok {expected : Token} {u : Unit} :
    (expectToken expected).run text = .ok (u, rest) ↔ ∃ start, readToken text = (expected, start, rest) := by
  change (if (readToken text).1 = expected then ok ((), (readToken text).2.2) else _) = _ ↔ _
  constructor
  · intro h
    split at h
    · next htoken =>
      cases h
      exact ⟨(readToken text).2.1, htoken ▸ rfl⟩
    · nomatch h
  · rintro ⟨start, h⟩
    rw [h]
    exact if_pos rfl

theorem expectToken_newline : ToEnd newline (expectToken .newline) := by
  intro u text rest hrun
  obtain ⟨start, hread⟩ := expectToken_eq_ok.mp hrun
  obtain ⟨taken, htext, hnewline, hagain⟩ := readToken_spec hread
  exact ⟨taken, htext, hnewline rfl, fun rest' => expectToken_eq_ok.mpr (hagain rest' (.inl rfl))⟩

theorem expectToken_inside (expected : Token) : Inside newline (expectToken expected) := by
  intro u text rest hrun
  obtain ⟨start, hread⟩ := expectToken_eq_ok.mp hrun
  obtain ⟨taken, htext, -, hagain⟩ := readToken_spec hread
  exact ⟨taken, htext, fun rest' hsame => expectToken_eq_ok.mpr (hagain rest' (.inr hsame))⟩

theorem peekToken_eq_true :
    (peekToken token).run text = .ok (true, rest) ↔ ∃ start, readToken text = (token, start, rest) := by
  change (if (readToken text).1 = token then ok (true, (readToken text).2.2)
    else ok (false, (readToken text).2.1)) = _ ↔ _
  constructor
  · intro h
    split at h
    · next htoken =>
      cases h
      exact ⟨(readToken text).2.1, htoken ▸ rfl⟩
    · nomatch h
  · rintro ⟨start, h⟩
    rw [h]
    exact if_pos rfl

theorem peekToken_eq_false :
    (peekToken token).run text = .ok (false, rest) ↔ (readToken text).1 ≠ token ∧ skipComments text = rest := by
  change (if (readToken text).1 = token then ok (true, (readToken text).2.2)
    else ok (false, skipComments text)) = _ ↔ _
  split
  · next htoken => simp [htoken]
  · next htoken => simp [htoken]

theorem peekToken_inside (token : Token) : Inside newline (peekToken token) := by
  intro found text rest hrun
  cases found with
  | true =>
    obtain ⟨start, hread⟩ := peekToken_eq_true.mp hrun
    obtain ⟨taken, htext, -, hagain⟩ := readToken_spec hread
    exact ⟨taken, htext, fun rest' hsame => peekToken_eq_true.mpr (hagain rest' (.inr hsame))⟩
  | false =>
    obtain ⟨hother, rfl⟩ := peekToken_eq_false.mp hrun
    obtain ⟨taken, htext, hagain⟩ := readToken_start (readToken_eq text)
    refine ⟨taken, htext, fun rest' hsame => peekToken_eq_false.mpr ?_⟩
    obtain ⟨_, hread⟩ := hagain rest' hsame
    rw [hread]
    exact ⟨hother, congrArg (·.2.1) hread⟩

theorem readIdent_eq_ok {identType : String} {name : Bytes} : (readIdent identType).run text = .ok (name, rest) ↔
      name ≠ [] ∧ text.takeWhile isVarname = name ∧ eatWhitespace (text.dropWhile isVarname) = rest := by
  change (if text.takeWhile isVarname = [] then _ else ok (text.takeWhile isVarname, _)) = _ ↔ _
  constructor
  · intro h
    split at h
    · nomatch h
    · next hname =>
      cases h
      exact ⟨hname, rfl, rfl⟩
  · rintro ⟨hname, rfl, rfl⟩
    exact if_neg hname

theorem readIdent_inside (identType : String) : Inside newline (readIdent identType) := by
  intro name text rest hrun
  obtain ⟨hname, rfl, rfl⟩ := readIdent_eq_ok.mp hrun
  obtain ⟨blanks, hblanks, heat⟩ := eatWhitespace_spec (text.dropWhile isVarname)
  refine ⟨text.takeWhile isVarname ++ blanks, ?_, fun rest' hsame => readIdent_eq_ok.mpr ⟨hname, ?_⟩⟩
  · rw [append_assoc, ← hblanks, takeWhile_append_dropWhile]
  · have hsame' := hsame.append_left blanks
    rw [← hblanks] at hsame'
    rw [append_assoc, hsame'.while.1, hsame'.while.2]
    exact ⟨rfl, heat rest' hsame⟩

theorem closeBrace_spec {var : Bytes} (h : closeBrace var text = (action, rest)) (hok : ∀ what, action ≠ .error what) :
    var ≠ [] ∧ text = 125 :: rest ∧ action = .addSpecial var := by
  fun_cases closeBrace var text with
  | case1 rest hvar =>
    rw [closeBrace, if_pos hvar] at h
    cases h
    exact absurd rfl (hok _)
  | case2 rest hvar =>
    rw [closeBrace, if_neg hvar] at h
    cases h
    exact ⟨hvar, rfl, rfl⟩
  | case3 text hbrace =>
    rw [closeBrace] at h
    · cases h
      exact absurd rfl (hok _)
    · exact hbrace

theorem escapeStep_spec (h : escapeStep text = (action, rest)) (hok : ∀ what, action ≠ .error what) :
    action ≠ .stop ∧ ∃ taken, text = taken ++ rest ∧
      ∀ rest', SameLine newline rest rest' → escapeStep (taken ++ rest') = (action, rest') := by
  unfold escapeStep at h
  split at h
  case h_1 =>
    cases h
    exact ⟨nofun, [36], rfl, fun _ _ => rfl⟩
  case h_2 =>
    cases h
    exact ⟨nofun, [32], rfl, fun _ _ => rfl⟩
  case h_3 text =>
    cases h
    refine ⟨nofun, 13 :: 10 :: text.takeWhile (· == 32), ?_, fun rest' hsame => ?_⟩
    · rw [cons_append, cons_append, takeWhile_append_dropWhile]
    · rw [cons_append, cons_append, escapeStep, hsame.while.2]
  case h_4 text =>
    cases h
    refine ⟨nofun, 10 :: text.takeWhile (· == 32), ?_, fun rest' hsame => ?_⟩
    · rw [cons_append, takeWhile_append_dropWhile]
    · rw [cons_append, escapeStep, hsame.while.2]
  case h_5 text =>
    obtain ⟨hvar, htext, rfl⟩ := closeBrace_spec h hok
    refine ⟨nofun, 123 :: (text.takeWhile isVarname ++ [125]), ?_, fun rest' hsame => ?_⟩
    · rw [cons_append, append_assoc, singleton_append, ← htext, takeWhile_append_dropWhile]
    · have hsame' := hsame.append_left [125]
      rw [singleton_append, ← htext] at hsame'
      rw [cons_append, append_assoc, escapeStep, hsame'.while.1, hsame'.while.2, singleton_append,
        closeBrace, if_neg hvar]
  case h_6 =>
    cases h
    exact ⟨nofun, [58], rfl, fun _ _ => rfl⟩
  case h_7 =>
    cases h
    exact absurd rfl (hok _)
  case h_8 c text h36 h32 h13 h10 h123 h58 =>
    split at h
    · next hc =>
      cases h
      refine ⟨nofun, (c :: text).takeWhile isSimpleVarname, takeWhile_append_dropWhile.symm, fun rest' hsame => ?_⟩
      obtain ⟨htake, hdrop⟩ := hsame.while
      rw [takeWhile_cons_of_pos hc, cons_append] at htake hdrop ⊢
      rw [escapeStep, if_pos hc, htake, hdrop]
      · exact h36
      · exact h32
      · exact fun _ hcr => absurd (hcr ▸ hc) (by decide)
      · exact h10
      · exact h123
      · exact h58
    · cases h
      exact absurd rfl (hok _)

/-- A value is read to the end of its line, and a path not so far. -/
theorem evalStep_spec (h : evalStep path text = (action, rest)) (hok : ∀ what, action ≠ .error what) :
    ∃ taken, text = taken ++ rest ∧ (action ≠ .stop → taken ≠ []) ∧ (action = .stop ∧ path = false → newline ∈ taken) ∧
      ∀ rest', action = .stop ∧ path = false ∨ SameLine newline rest rest' →
        evalStep path (taken ++ rest') = (action, rest') := by
  unfold evalStep at h
  split at h
  case h_1 =>
    cases h
    exact absurd rfl (hok _)
  case h_2 =>
    cases h
    exact absurd rfl (hok _)
  case h_3 text =>
    cases h
    cases path with
    | false => exact ⟨[13, 10], rfl, nofun, fun _ => by decide, fun _ _ => rfl⟩
    | true =>
      refine ⟨[], rfl, fun hne => absurd rfl hne, nofun, fun rest' hsame => ?_⟩
      obtain ⟨rest'', rfl⟩ := (hsame.resolve_left nofun).starts (show newline ∉ [13, 10].dropLast by decide) rfl
      rfl
  case h_4 =>
    cases h
    exact absurd rfl (hok _)
  case h_5 text =>
    cases h
    cases path with
    | false => exact ⟨[10], rfl, nofun, fun _ => by decide, fun _ _ => rfl⟩
    | true =>
      refine ⟨[], rfl, fun hne => absurd rfl hne, nofun, fun rest' hsame => ?_⟩
      obtain ⟨rest'', rfl⟩ := (hsame.resolve_left nofun).starts (show newline ∉ [10].dropLast by decide) rfl
      rfl
  case h_6 text =>
    obtain ⟨hstop, taken, rfl, hagain⟩ := escapeStep_spec h hok
    refine ⟨36 :: taken, rfl, fun _ => cons_ne_nil _ _, fun h => absurd h.1 hstop, fun rest' hsame => ?_⟩
    exact hagain rest' (hsame.resolve_left fun h => hstop h.1)
  case h_7 c text h0 hcrlf h13 h10 h36 =>
    have hstep : ∀ text, evalStep path (c :: text) =
        if isPlain c then (.addText ((c :: text).takeWhile isPlain), (c :: text).dropWhile isPlain)
        else if path then (.stop, c :: text) else (.addText [c], text) := by
      intro text
      rw [evalStep]
      · exact h0
      · exact fun _ hcr => absurd hcr h13
      · exact h13
      · exact h10
      · exact h36
    split at h
    · next hc =>
      cases h
      refine ⟨(c :: text).takeWhile isPlain, takeWhile_append_dropWhile.symm, ?_, nofun, fun rest' hsame => ?_⟩
      · rw [takeWhile_cons_of_pos hc]
        exact fun _ => cons_ne_nil _ _
      · obtain ⟨htake, hdrop⟩ := (hsame.resolve_left nofun).while
        rw [takeWhile_cons_of_pos hc, cons_append] at htake hdrop ⊢
        rw [hstep, if_pos hc, htake, hdrop]
    · next hc =>
      split at h
      · next hpath =>
        cases h
        refine ⟨[], rfl, fun hne => absurd rfl hne, fun h => absurd hpath (h.2 ▸ Bool.false_ne_true),
          fun rest' hsame => ?_⟩
        obtain ⟨rest'', rfl⟩ := (hsame.resolve_left fun h => absurd hpath (h.2 ▸ Bool.false_ne_true)).starts
          (show newline ∉ [c].dropLast from nofun) rfl
        rw [nil_append, singleton_append, hstep, if_neg hc, if_pos hpath]
      · next hpath =>
        cases h
        refine ⟨[c], rfl, fun _ => cons_ne_nil _ _, nofun, fun rest' _ => ?_⟩
        rw [singleton_append, hstep, if_neg hc, if_neg hpath]

theorem evalRound_eq_ok : (evalRound path eval).run text = .ok (result, rest) ↔
      ∃ action, evalStep path text = (action, rest) ∧ action.apply eval = .ok result := by
  change ((evalStep path text).1.apply eval).map (·, (evalStep path text).2) = _ ↔ _
  rw [map_eq_ok]
  constructor
  · rintro ⟨result, happly, h⟩
    cases h
    exact ⟨(evalStep path text).1, rfl, happly⟩
  · rintro ⟨action, hstep, happly⟩
    rw [hstep]
    exact ⟨result, happly, rfl⟩

theorem EvalAction.ne_error_of_apply (h : action.apply eval = .ok result) (what : String) : action ≠ .error what := by
  rintro rfl
  nomatch h

theorem evalRound_inside (path : Bool) (eval : EvalString) : Inside newline (evalRound path eval) := by
  intro result text rest hrun
  obtain ⟨action, hstep, happly⟩ := evalRound_eq_ok.mp hrun
  obtain ⟨taken, htext, -, -, hagain⟩ := evalStep_spec hstep (EvalAction.ne_error_of_apply happly)
  exact ⟨taken, htext, fun rest' hsame => evalRound_eq_ok.mpr ⟨action, hagain rest' (.inr hsame), happly⟩⟩

theorem evalRound_toEnd (eval eval' : EvalString) : ToEndFor newline (evalRound false eval) (.inr eval') := by
  intro text rest hrun
  obtain ⟨action, hstep, happly⟩ := evalRound_eq_ok.mp hrun
  obtain ⟨taken, htext, -, hnewline, hagain⟩ := evalStep_spec hstep (EvalAction.ne_error_of_apply happly)
  have hstop : action = .stop := by
    cases action with
    | stop => rfl
    | _ => nomatch happly
  exact ⟨taken, htext, hnewline ⟨hstop, rfl⟩,
    fun rest' => evalRound_eq_ok.mpr ⟨action, hagain rest' (.inl ⟨hstop, rfl⟩), happly⟩⟩

theorem evalRound_progress {eval' : EvalString} (h : (evalRound path eval).run text = .ok (.inl eval', rest)) :
    rest.length < text.length := by
  obtain ⟨action, hstep, happly⟩ := evalRound_eq_ok.mp h
  obtain ⟨taken, rfl, hne, -⟩ := evalStep_spec hstep (EvalAction.ne_error_of_apply happly)
  have hstop : action ≠ .stop := by
    rintro rfl
    nomatch happly
  have := length_pos_iff.mpr (hne hstop)
  rw [length_append]
  omega

theorem modify_eatWhitespace_inside : Inside newline (modify eatWhitespace : Reader PUnit) := by
  intro u text rest hrun
  obtain ⟨taken, htext, hagain⟩ := eatWhitespace_spec text
  cases hrun
  refine ⟨taken, htext, fun rest' hsame => ?_⟩
  change (ok (PUnit.unit, eatWhitespace (taken ++ rest')) : Except ManifestError _) = _
  rw [hagain rest' hsame]

theorem evalLoop_inside (eval : EvalString) : Inside newline (LineReader.loop .tooDeep (evalRound true) eval) :=
  fun _ => InsideFor.loop evalRound_progress (fun eval _ => evalRound_inside true eval _)
    fun eval => evalRound_inside true eval _

theorem readPath_inside : Inside newline readPath :=
  Inside.bind (evalLoop_inside []) fun eval => Inside.bind modify_eatWhitespace_inside fun _ => .pure eval

theorem readPath_progress (h : readPath.run text = .ok (eval, rest)) (hne : eval ≠ []) : rest.length < text.length := by
  obtain ⟨eval', middle, hloop, hblanks⟩ := LineReader.run_bind_eq_ok.mp h
  have heval : eval' = eval ∧ eatWhitespace middle = rest := by
    cases hblanks
    exact ⟨rfl, rfl⟩
  obtain ⟨rfl, rfl⟩ := heval
  obtain ⟨blanks, hmiddle, -⟩ := eatWhitespace_spec middle
  have hshort := congrArg length hmiddle
  rw [length_append] at hshort
  cases (LineReader.run_loop_eq_ok evalRound_progress).mp hloop with
  | stop hround =>
    obtain ⟨action, -, happly⟩ := evalRound_eq_ok.mp hround
    cases action with
    | stop =>
      cases happly
      exact absurd rfl hne
    | _ => nomatch happly
  | more hround hrounds =>
    have hless := evalRound_progress hround
    obtain ⟨taken, htext, -⟩ := evalLoop_inside _ _ ((LineReader.run_loop_eq_ok evalRound_progress).mpr hrounds)
    have hle := congrArg length htext
    rw [length_append] at hle
    omega

theorem readVarValue_toEnd : ToEnd newline readVarValue := by
  have hloop : readVarValue = LineReader.loop .tooDeep (evalRound false) [] := bind_pure _
  rw [hloop]
  intro eval
  exact ToEndFor.loop evalRound_progress (fun eval _ => evalRound_inside false eval _)
    fun eval' => evalRound_toEnd eval' _

end Lexer
end Shuriken
