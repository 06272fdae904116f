import MacroLang.Proofs.Code
import MacroLang.Proofs.Source.Spelling

/-!
# What the tokens of a source text cover

A source text is made of the texts of its tokens and of gaps between them (`Covers`): the scanner succeeds if and only
if the text can be divided so, and then it returns these tokens, each with the line and column where its text starts
(`scan_eq_ok_iff`). There is one way at most to divide a text, since a word goes on up to a delimiter.

The scanner reads one character at a time. What it is in the middle of stands for a text that is pending
(`Mode.Opened`), and with the next character that text goes on or is done with (`Mode.Opened.step`).
-/

namespace MacroLang

/-! ## Positions -/

/-- The position behind a text. The line is one more than the line ends in it, and the column is one more than the
characters since the last of them. -/
def Position.after (cs : List Char) : Position where
  line := 1 + cs.count '\n'
  column := 1 + (cs.reverse.takeWhile (· != '\n')).length

theorem Position.after_concat (cs : List Char) (c : Char) : after (cs ++ [c]) = (after cs).step c := by
  by_cases h : c = '\n'
  · subst h
    simp [after, step, Nat.add_assoc]
  · simp [after, step, h, Nat.add_comm]

theorem Position.steps_after (cs ds : List Char) : (after cs).steps ds = after (cs ++ ds) := by
  induction ds generalizing cs with
  | nil => rw [List.append_nil]; rfl
  | cons d ds ih =>
    have htail := ih (cs ++ [d])
    rw [after_concat, List.append_assoc] at htail
    exact htail

/-! ## Texts divided into tokens -/

/-- Blanks and comments. A comment runs up to the end of its line; the last one may run up to the end of the text. -/
inductive Gap : (atEnd : Bool) → List Char → Prop
  | nil {atEnd : Bool} : Gap atEnd []
  | blank {atEnd : Bool} {c : Char} {cs : List Char} : isBlank c = true → Gap atEnd cs → Gap atEnd (c :: cs)
  | comment {atEnd : Bool} {cs rest : List Char} :
      '\n' ∉ cs → Gap atEnd rest → Gap atEnd (';' :: (cs ++ '\n' :: rest))
  | lastComment {cs : List Char} : '\n' ∉ cs → Gap true (';' :: cs)

/-- Behind `before`, the text consists of gaps and of the texts of the tokens, which start at the offsets. Taken by
itself, the text of a token is scanned into that token. -/
inductive Covers (file : String) : (before : List Char) → List Nat → List Token → List Char → Prop
  | stop {before rest : List Char} : Gap true rest → Covers file before [] [] rest
  | token {before gap written rest : List Char} {offsets : List Nat} {l : Lexeme} {ts : List Token} :
      Gap false gap → l.SpelledBy written → l.EndsBefore rest →
      Tokens.scan file (String.ofList written) = .ok ⟨[⟨l, .start⟩], .after written⟩ →
      Covers file (before ++ gap ++ written) offsets ts rest →
      Covers file before ((before ++ gap).length :: offsets) (⟨l, .after (before ++ gap)⟩ :: ts)
        (gap ++ (written ++ rest))

theorem Gap.append {atEnd : Bool} {gap rest : List Char} (h : Gap false gap) (hrest : Gap atEnd rest) :
    Gap atEnd (gap ++ rest) := by
  generalize hend : false = atEnd' at h
  induction h with
  | nil => exact hrest
  | blank hc _ ih => exact .blank hc (ih hend)
  | @comment _ cs _ hcs _ ih =>
    rw [List.cons_append, List.append_assoc]
    exact .comment hcs (ih hend)
  | lastComment _ => cases hend

variable {file : String} {before gap written rest : List Char} {offsets : List Nat} {ts : List Token}

/-- A gap in front goes to the first token. -/
theorem Covers.skip (hgap : Gap false gap) (h : Covers file (before ++ gap) offsets ts rest) :
    Covers file before offsets ts (gap ++ rest) := by
  cases h with
  | stop hrest => exact .stop (hgap.append hrest)
  | token hgap' hwritten hends halone hrest =>
    rw [← List.append_assoc, List.append_assoc before]
    rw [List.append_assoc before] at hrest
    exact .token (hgap.append hgap') hwritten hends halone hrest

theorem Lexeme.SpelledBy.ne_nil {l : Lexeme} (h : l.SpelledBy written) : written ≠ [] := by
  cases l with
  | text s =>
    obtain ⟨raw, rfl, -⟩ := h
    exact List.cons_ne_nil _ _
  | atom name => exact (isWord_iff.1 h.isWord).1
  | number n => exact (isWord_iff.1 h.isWord).1
  | var name => exact (isWord_iff.1 h.isWord).1
  | sign s => cases s <;> cases h <;> exact List.cons_ne_nil _ _
  | _ => cases h; exact List.cons_ne_nil _ _

/-- The tokens stand one behind the other. -/
theorem Covers.offsets_lt (h : Covers file before offsets ts rest) :
    (∀ k ∈ offsets, before.length ≤ k) ∧ offsets.Pairwise (· < ·) := by
  induction h with
  | stop _ => exact ⟨by simp, .nil⟩
  | @token before gap written rest offsets l ts _ hwritten _ _ _ ih =>
    have hpos : 0 < written.length := List.length_pos_iff.2 hwritten.ne_nil
    have hlater : ∀ k ∈ offsets, (before ++ gap).length < k := by
      intro k hk
      have hle := ih.1 k hk
      rw [List.length_append] at hle
      omega
    refine ⟨fun k hk => ?_, List.pairwise_cons.2 ⟨hlater, ih.2⟩⟩
    have hfirst : before.length ≤ (before ++ gap).length := by simp
    rcases List.mem_cons.1 hk with rfl | hk
    · exact hfirst
    · exact Nat.le_trans hfirst (Nat.le_of_lt (hlater k hk))

/-! ## Divided texts are scanned -/

theorem scanFrom_comment {cs : List Char} (h : '\n' ∉ cs) (found : List Token) (p : Position) :
    Tokens.scanFrom file found .comment p (cs ++ rest) = Tokens.scanFrom file found .comment (p.steps cs) rest := by
  induction cs generalizing p with
  | nil => rfl
  | cons c cs ih =>
    simp only [List.mem_cons, not_or] at h
    have hstep : Mode.step file p c .comment = .ok ([], .comment) := by
      simp [Mode.step, Ne.symm h.1]
    exact (scanFrom_cons hstep).trans (ih h.2 (p.step c))

theorem step_blank {c : Char} (h : isBlank c = true) (p : Position) :
    Mode.step file p c .between = .ok ([], .between) := by
  unfold Mode.step Mode.begin
  rw [if_pos h]

theorem scanFrom_gap (h : Gap false gap) (found : List Token) (p : Position) :
    Tokens.scanFrom file found .between p (gap ++ rest) =
      Tokens.scanFrom file found .between (p.steps gap) rest := by
  generalize hend : false = atEnd at h
  induction h generalizing p with
  | nil => rfl
  | @blank _ c cs hc _ ih => exact (scanFrom_cons (step_blank hc p)).trans (ih (p.step c) hend)
  | @comment _ cs gap hcs _ ih =>
    have hopen : Mode.step file p ';' .between = .ok ([], .comment) := rfl
    have hclose (q : Position) : Mode.step file q '\n' .comment = .ok ([], .between) := rfl
    have hcomment := @scanFrom_comment file ('\n' :: gap ++ rest) cs hcs found (p.step ';')
    have hgap := ih (((p.step ';').steps cs).step '\n') hend
    have hsteps : p.steps (';' :: (cs ++ '\n' :: gap)) = (((p.step ';').steps cs).step '\n').steps gap := by
      simp [Position.steps]
    rw [hsteps, ← hgap, List.cons_append, scanFrom_cons hopen, List.append_assoc]
    exact hcomment.trans (scanFrom_cons (hclose _))
  | lastComment _ => cases hend

/-- The end of the text may come in a gap. -/
theorem scanFrom_lastGap (h : Gap true gap) (found : List Token) (p : Position) :
    Tokens.scanFrom file found .between p gap = .ok ⟨found.reverse, p.steps gap⟩ := by
  generalize hend : true = atEnd at h
  induction h generalizing p with
  | nil => simp [Tokens.scanFrom, Mode.finish, bind, Except.bind, pure, Except.pure, Position.steps]
  | @blank _ c cs hc _ ih => exact (scanFrom_cons (step_blank hc p)).trans (ih (p.step c) hend)
  | @comment _ cs gap hcs _ ih =>
    have hopen : Gap false (';' :: (cs ++ ['\n'])) := .comment hcs .nil
    have hgap := @scanFrom_gap file _ gap hopen found p
    have hsteps (gap : List Char) :
        p.steps (';' :: (cs ++ '\n' :: gap)) = (p.steps (';' :: (cs ++ ['\n']))).steps gap := by
      simp [Position.steps]
    rw [hsteps, ← ih _ hend, ← hgap, List.cons_append, List.append_assoc]
    rfl
  | @lastComment cs hcs =>
    have hopen : Mode.step file p ';' .between = .ok ([], .comment) := rfl
    have hcomment := @scanFrom_comment file [] cs hcs found (p.step ';')
    rw [List.append_nil] at hcomment
    rw [scanFrom_cons hopen]
    refine hcomment.trans ?_
    simp [Tokens.scanFrom, Mode.finish, bind, Except.bind, pure, Except.pure, Position.steps]

theorem Covers.scanFrom (h : Covers file before offsets ts rest) (found : List Token) :
    Tokens.scanFrom file found .between (.after before) rest =
      .ok ⟨found.reverse ++ ts, .after (before ++ rest)⟩ := by
  induction h generalizing found with
  | stop hrest => rw [scanFrom_lastGap hrest, Position.steps_after, List.append_nil]
  | token hgap hwritten hends _ _ ih =>
    rw [scanFrom_gap hgap, Position.steps_after, scanFrom_spelled hwritten hends, Position.steps_after, ih]
    simp

/-- A text that spells a lexeme is scanned into it. -/
theorem Lexeme.SpelledBy.scan {l : Lexeme} (h : l.SpelledBy written) (file : String) :
    Tokens.scan file (String.ofList written) = .ok ⟨[⟨l, .start⟩], .after written⟩ := by
  have hends : l.EndsBefore [] := by
    cases l with
    | sign s => cases s <;> simp [EndsBefore]
    | _ => simp [EndsBefore, endsWord]
  have hscan := @scanFrom_spelled file [] [] .start l written h hends
  rw [List.append_nil] at hscan
  have hstop : Position.start.steps written = .after written := Position.steps_after [] written
  rw [Tokens.scan, String.toList_ofList, hscan, hstop]
  rfl

/-! ## Scanned texts are divided -/

/-- Behind `before`, the text is what the scanner is in the middle of. -/
def Mode.Opened (before pending : List Char) : Mode → Prop
  | between => pending = []
  | comment => ∃ cs, pending = ';' :: cs ∧ '\n' ∉ cs
  | word start chars => start = .after before ∧ pending = chars.reverse ∧ isWord pending = true
  | text start chars => start = .after before ∧ ∃ raw, pending = '\"' :: raw ∧ Unescapes raw chars.reverse
  | escape start chars => start = .after before ∧ ∃ raw, pending = '\"' :: (raw ++ ['\\']) ∧ Unescapes raw chars.reverse
  | tilde start => start = .after before ∧ pending = ['~']

/-- The characters read behind `before` come to the tokens and to what the mode is in the middle of, and so any way to
divide what is pending and the rest is one to divide all of it. -/
def Leads (file : String) (before read : List Char) (tokens : List Token) (mode : Mode) : Prop :=
  ∃ before' pending, before' ++ pending = before ++ read ∧ mode.Opened before' pending ∧
    ∀ offsets ts rest, Covers file before' offsets ts (pending ++ rest) →
      ∃ offsets', Covers file before offsets' (tokens ++ ts) (read ++ rest)

namespace Leads

variable {read : List Char} {tokens : List Token} {mode : Mode}

/-- No token is finished yet. -/
theorem goOn (h : mode.Opened before read) : Leads file before read [] mode :=
  ⟨before, read, rfl, h, fun offsets _ _ hrest => ⟨offsets, hrest⟩⟩

theorem skip (h : Gap false gap) : Leads file before gap [] .between :=
  ⟨before ++ gap, [], List.append_nil _, rfl, fun offsets _ _ hrest => ⟨offsets, hrest.skip h⟩⟩

/-- A token is finished in front of what else was read. -/
theorem token {l : Lexeme} (hwritten : l.SpelledBy written) (hends : ∀ rest, l.EndsBefore (read ++ rest))
    (h : Leads file (before ++ written) read tokens mode) :
    Leads file before (written ++ read) (⟨l, .after before⟩ :: tokens) mode := by
  obtain ⟨before', pending, happend, hmode, hcovers⟩ := h
  refine ⟨before', pending, by rw [happend, List.append_assoc], hmode, fun offsets ts rest hrest => ?_⟩
  obtain ⟨offsets', hothers⟩ := hcovers offsets ts rest hrest
  have hfirst := @Covers.token file before [] written (read ++ rest) offsets' l (tokens ++ ts) .nil hwritten
    (hends rest) (hwritten.scan file) (by rwa [List.append_nil])
  rw [List.append_nil, List.nil_append] at hfirst
  exact ⟨_, by rwa [List.append_assoc]⟩

end Leads

/-- A character at which no token is open. -/
theorem leads_begin (file : String) (before : List Char) (c : Char) :
    Leads file before [c] (Mode.begin (.after before) c).1 (Mode.begin (.after before) c).2 := by
  have hmark {l : Lexeme} (hc : l.SpelledBy [c]) (hends : ∀ rest, l.EndsBefore rest) :
      Leads file before [c] [⟨l, .after before⟩] .between :=
    .token hc hends (.skip .nil)
  cases hc : isDelimiter c with
  | false =>
    rw [begin_of_not_isDelimiter hc]
    exact .goOn ⟨rfl, rfl, isWord_iff.2 ⟨by simp, by simpa using hc⟩⟩
  | true =>
    unfold Mode.begin
    split
    · rename_i hblank
      exact .skip (.blank hblank .nil)
    split
    · exact .goOn ⟨[], rfl, by simp⟩
    · exact hmark (l := .langle) rfl fun _ => trivial
    · exact hmark (l := .rangle) rfl fun _ => trivial
    · exact hmark (l := .lparen) rfl fun _ => trivial
    · exact hmark (l := .rparen) rfl fun _ => trivial
    · exact hmark (l := .lbracket) rfl fun _ => trivial
    · exact hmark (l := .rbracket) rfl fun _ => trivial
    · exact hmark (l := .sign .quote) rfl fun _ => trivial
    · exact .goOn ⟨rfl, rfl⟩
    · exact .goOn ⟨rfl, [], rfl, .nil⟩
    · simp_all [isDelimiter]

/-- The token of a word is spelled by the word. -/
theorem Mode.Opened.isWordOf {start p : Position} {chars pending : List Char} {t : Token}
    (h : (Mode.word start chars).Opened before pending) (ht : wordToken file start chars p = .ok t) :
    ∃ l, t = ⟨l, .after before⟩ ∧ l.SpelledBy pending ∧ ∀ rest, endsWord rest = true → l.EndsBefore rest := by
  obtain ⟨rfl, rfl, hword⟩ := h
  obtain ⟨l, q⟩ := t
  obtain ⟨hq, hofWord, hshort⟩ := wordToken_eq_ok.1 ht
  cases hq
  have hof : IsWordOf l chars.reverse := ⟨hword, hofWord, hshort⟩
  refine ⟨l, rfl, ?_⟩
  unfold Lexeme.ofWord at hofWord
  split at hofWord
  · cases hofWord
    exact ⟨hof, fun _ h => h⟩
  · cases hofWord
    exact ⟨hof, fun _ h => h⟩
  · split at hofWord
    · cases hofWord
    · cases hofWord
      exact ⟨hof, fun _ h => h⟩
  · cases hofWord
    exact ⟨hof, fun _ h => h⟩

theorem Unescapes.concat {raw s : List Char} (h : Unescapes raw s) {c : Char} (hquote : c ≠ '\"') (hmark : c ≠ '\\') :
    Unescapes (raw ++ [c]) (s ++ [c]) := by
  induction h with
  | nil => exact .plain hquote hmark .nil
  | plain hquote' hmark' _ ih => exact .plain hquote' hmark' ih
  | escaped d _ ih => exact .escaped d ih

theorem Unescapes.concat_escaped {raw s : List Char} (h : Unescapes raw s) (c : Char) :
    Unescapes (raw ++ ['\\', c]) (s ++ [unescape c]) := by
  induction h with
  | nil => exact .escaped c .nil
  | plain hquote' hmark' _ ih => exact .plain hquote' hmark' ih
  | escaped d _ ih => exact .escaped d ih

/-- The next character leads on. -/
theorem Mode.Opened.step {mode mode' : Mode} {pending : List Char} {p : Position} {c : Char} {tokens : List Token}
    (h : mode.Opened before pending) (hp : p = .after (before ++ pending))
    (hstep : mode.step file p c = .ok (tokens, mode')) : Leads file before (pending ++ [c]) tokens mode' := by
  subst hp
  cases mode with
  | between =>
    cases h
    rw [Mode.step, List.append_nil, Except.ok.injEq] at hstep
    have hbegin := leads_begin file before c
    rwa [hstep] at hbegin
  | comment =>
    obtain ⟨cs, rfl, hcs⟩ := h
    by_cases hc : c = '\n'
    · subst hc
      cases hstep
      exact .skip (.comment hcs .nil)
    · simp only [Mode.step, beq_iff_eq, hc, if_false] at hstep
      cases hstep
      exact .goOn ⟨cs ++ [c], rfl, by simp [hcs, Ne.symm hc]⟩
  | word start chars =>
    cases hc : isDelimiter c with
    | true =>
      rw [Mode.step, if_pos hc] at hstep
      obtain ⟨t, ht, hstep⟩ := except_bind_eq_ok.1 hstep
      cases hstep
      obtain ⟨l, rfl, hwritten, hends⟩ := h.isWordOf ht
      exact .token hwritten (fun rest => hends _ hc) (leads_begin file (before ++ pending) c)
    | false =>
      rw [Mode.step, hc] at hstep
      cases hstep
      obtain ⟨rfl, rfl, hword⟩ := h
      refine .goOn ⟨rfl, by simp, isWord_iff.2 ⟨by simp, fun d hd => ?_⟩⟩
      rcases List.mem_append.1 hd with hd | hd
      · exact (isWord_iff.1 hword).2 d hd
      · rwa [List.mem_singleton.1 hd]
  | text start chars =>
    obtain ⟨rfl, raw, rfl, hraw⟩ := h
    by_cases hquote : c = '\"'
    · subst hquote
      cases hstep
      have hwritten : (Lexeme.text (String.ofList chars.reverse)).SpelledBy ('\"' :: raw ++ ['\"']) :=
        ⟨raw, rfl, by rwa [String.toList_ofList]⟩
      have htoken := @Leads.token file before _ [] [] .between _ hwritten (fun _ => trivial) (.skip .nil)
      rwa [List.append_nil] at htoken
    by_cases hmark : c = '\\'
    · subst hmark
      cases hstep
      exact .goOn ⟨rfl, raw, rfl, hraw⟩
    · simp only [Mode.step, beq_iff_eq, hquote, hmark, if_false] at hstep
      cases hstep
      refine .goOn ⟨rfl, raw ++ [c], rfl, ?_⟩
      rw [List.reverse_cons]
      exact hraw.concat hquote hmark
  | escape start chars =>
    obtain ⟨rfl, raw, rfl, hraw⟩ := h
    cases hstep
    refine .goOn ⟨rfl, raw ++ ['\\', c], by simp, ?_⟩
    rw [List.reverse_cons]
    exact hraw.concat_escaped c
  | tilde start =>
    obtain ⟨rfl, rfl⟩ := h
    by_cases hc : c = '!'
    · subst hc
      cases hstep
      exact @Leads.token file before ['~', '!'] [] [] .between (.sign .splice) rfl (fun _ => trivial) (.skip .nil)
    · simp only [Mode.step, beq_iff_eq, hc, if_false] at hstep
      cases hstep
      exact .token (l := .sign .unquote) rfl (fun _ => by simpa [Lexeme.EndsBefore] using hc)
        (leads_begin file (before ++ ['~']) c)

/-- At the end of the text, what is pending is done with. -/
theorem Mode.Opened.finish {mode : Mode} {pending : List Char} {p : Position} {tokens : List Token}
    (h : mode.Opened before pending) (hfinish : mode.finish file p = .ok tokens) :
    ∃ offsets, Covers file before offsets tokens pending := by
  have htoken {l : Lexeme} (hwritten : l.SpelledBy pending) (hends : l.EndsBefore []) :
      ∃ offsets, Covers file before offsets [⟨l, .after before⟩] pending := by
    have hcovers := @Covers.token file before [] pending [] [] l [] .nil hwritten hends (hwritten.scan file)
      (.stop .nil)
    rw [List.append_nil, List.append_nil, List.nil_append] at hcovers
    exact ⟨_, hcovers⟩
  cases mode with
  | between =>
    cases h
    cases hfinish
    exact ⟨[], .stop .nil⟩
  | comment =>
    obtain ⟨cs, rfl, hcs⟩ := h
    cases hfinish
    exact ⟨[], .stop (.lastComment hcs)⟩
  | word start chars =>
    obtain ⟨t, ht, hfinish⟩ := except_bind_eq_ok.1 hfinish
    cases hfinish
    obtain ⟨l, rfl, hwritten, hends⟩ := h.isWordOf ht
    exact htoken hwritten (hends [] rfl)
  | tilde start =>
    obtain ⟨rfl, rfl⟩ := h
    cases hfinish
    exact htoken (l := .sign .unquote) rfl (by simp [Lexeme.EndsBefore])
  | _ => cases hfinish

theorem covers_of_scanFrom {cs : List Char} {mode : Mode} {pending : List Char} {p : Position} {found : List Token}
    {all : Tokens} (h : mode.Opened before pending) (hp : p = .after (before ++ pending))
    (hscan : Tokens.scanFrom file found mode p cs = .ok all) :
    all.stop = .after (before ++ pending ++ cs) ∧
      ∃ ts offsets, all.tokens = found.reverse ++ ts ∧ Covers file before offsets ts (pending ++ cs) := by
  induction cs generalizing before pending mode p found with
  | nil =>
    rw [Tokens.scanFrom] at hscan
    obtain ⟨ts, hfinish, hscan⟩ := except_bind_eq_ok.1 hscan
    cases hscan
    obtain ⟨offsets, hcovers⟩ := h.finish hfinish
    rw [List.append_nil, List.append_nil]
    exact ⟨hp, ts, offsets, rfl, hcovers⟩
  | cons c cs ih =>
    rw [Tokens.scanFrom] at hscan
    obtain ⟨⟨tokens, mode'⟩, hstep, hscan⟩ := except_bind_eq_ok.1 hscan
    obtain ⟨before', pending', happend, hmode, hcovers⟩ := h.step hp hstep
    have hp' : p.step c = .after (before' ++ pending') := by
      rw [hp, happend, ← Position.after_concat, List.append_assoc]
    obtain ⟨hstop, ts, offsets, hall, hrest⟩ := ih hmode hp' hscan
    obtain ⟨offsets', hfirst⟩ := hcovers offsets ts cs hrest
    refine ⟨?_, tokens ++ ts, offsets', ?_, ?_⟩
    · rw [hstop, happend]
      simp
    · rw [hall]
      simp
    · rwa [List.append_assoc] at hfirst

/-- The scanner succeeds exactly on texts that can be divided into tokens and gaps, and then it returns these tokens. -/
theorem scan_eq_ok_iff {file source : String} {ts : Tokens} : Tokens.scan file source = .ok ts ↔
    ts.stop = .after source.toList ∧ ∃ offsets, Covers file [] offsets ts.tokens source.toList := by
  constructor
  · intro h
    obtain ⟨hstop, tokens, offsets, rfl, hcovers⟩ :=
      @covers_of_scanFrom file [] source.toList .between [] .start [] ts rfl rfl h
    exact ⟨hstop, offsets, hcovers⟩
  · rintro ⟨hstop, offsets, hcovers⟩
    obtain ⟨tokens, stop⟩ := ts
    cases hstop
    exact hcovers.scanFrom []

end MacroLang
