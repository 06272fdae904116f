import MacroLang.Proofs.Source.Coverage
import MacroLang.Source.Reader

/-!
# Two source texts, one below the other

Behind a text that can be read and a line break, scanner and reader stand as they do at the start of a text: no token
and no construct is open there (`scanFrom_above`, `readForms_above`). Only the line number differs, and both work the
same on every line: what they return for a text that stands `k` lines further down is what they return for the text
itself, moved down by `k` lines (`scanFrom_down`, `readForms_down`).

Main statement: `readSource_below`.
-/

namespace MacroLang

/-! ## Further down -/

def Position.down (k : Nat) (p : Position) : Position :=
  { p with line := p.line + k }

/-- The annotations with a line number that is greater by `k`. -/
def Info.down (k : Nat) (i : Info) : Info :=
  match i.line with
  | some (.number (.int n)) => { i with line := some (.int (n + k)) }
  | _ => i

namespace Value

mutual

/-- The value with all its nodes `k` lines further down. -/
def down (k : Nat) : Value → Value
  | call name args info => call name (downAll k args) (info.down k)
  | apply head args info => apply (down k head) (downAll k args) (info.down k)
  | var name c info => var name c (info.down k)
  | list items => list (downAll k items)
  | tuple items => tuple (downAll k items)
  | unquote v info => unquote (down k v) (info.down k)
  | splice v info => splice (down k v) (info.down k)
  | v => v

def downAll (k : Nat) : List Value → List Value
  | [] => []
  | v :: vs => down k v :: downAll k vs

end

theorem downAll_eq_map (k : Nat) (vs : List Value) : downAll k vs = vs.map (down k) := by
  induction vs with
  | nil => rfl
  | cons v vs ih => rw [downAll, ih, List.map_cons]

theorem down_withHead (k : Nat) (h : Value) (args : List Value) (info : Info) :
    (withHead h args info).down k = withHead (h.down k) (args.map (down k)) (info.down k) := by
  rw [← downAll_eq_map]
  cases h <;> rfl

end Value

def ReadCause.down (k : Nat) : ReadCause → ReadCause
  | unterminated what start => unterminated what (start.down k)
  | cause => cause

namespace Error

/-- The error with the place it is reported at `k` lines further down. -/
def down (k : Nat) : Error → Error
  | located cause info file => located cause (info.down k) file
  | reading file p cause => reading file (p.map (.down k)) (cause.down k)
  | e => e

end Error

/-- The classes of errors that a caller can tell apart. -/
inductive ErrorClass where
  | node (kind : ErrorKind)
  | source
  | wrongType
  | wrongValue
  | fileMissing
  | isDirectory
  | overflow
  | index
  | depth
deriving DecidableEq, Repr

def Error.errorClass : Error → ErrorClass
  | located cause _ _ => .node cause.kind
  | reading .. => .source
  | usage (.notEntries _) | usage (.entryType _) | valueAbsent => .wrongType
  | usage _ => .wrongValue
  | fileMissing _ => .fileMissing
  | isDirectory _ => .isDirectory
  | overflow _ => .overflow
  | tooShort _ => .index
  | callDepth => .depth

theorem Error.errorClass_down (k : Nat) (e : Error) : (e.down k).errorClass = e.errorClass := by
  cases e <;> rfl

/-- The outcome for a text `k` lines further down, if `f` moves a result there. -/
def outcomeDown {α γ : Type} (k : Nat) (f : α → γ) : Except Error α → Except Error γ
  | .ok a => .ok (f a)
  | .error e => .error (e.down k)

variable {k : Nat} {file : String}

theorem outcomeDown_bind {α γ δ ζ : Type} {f : α → γ} {g : δ → ζ} {r : Except Error α} {next : α → Except Error δ}
    {next' : γ → Except Error ζ} (h : ∀ a, next' (f a) = outcomeDown k g (next a)) :
    (outcomeDown k f r >>= next') = outcomeDown k g (r >>= next) := by
  cases r with
  | ok a => exact h a
  | error e => rfl

/-! ## The scanner further down -/

theorem Position.step_down (k : Nat) (p : Position) (c : Char) : (p.down k).step c = (p.step c).down k := by
  unfold step
  split
  · exact congrArg (Position.mk · 1) (Nat.add_right_comm p.line k 1)
  · rfl

def Token.down (k : Nat) (t : Token) : Token :=
  { t with position := t.position.down k }

def Tokens.down (k : Nat) (ts : Tokens) : Tokens :=
  ⟨ts.tokens.map (.down k), ts.stop.down k⟩

def Mode.down (k : Nat) : Mode → Mode
  | word start chars => word (start.down k) chars
  | text start chars => text (start.down k) chars
  | escape start chars => escape (start.down k) chars
  | tilde start => tilde (start.down k)
  | mode => mode

/-- The objection to a word holds no place. -/
theorem down_of_ofWord {word : List Char} {cause : ReadCause} (h : Lexeme.ofWord word = .error cause) :
    cause.down k = cause := by
  unfold Lexeme.ofWord at h
  split at h
  · cases h
  · cases h
  · split at h
    · cases h
      rfl
    · cases h
  · cases h

theorem wordToken_down (start : Position) (chars : List Char) (stop : Position) :
    wordToken file (start.down k) chars (stop.down k) =
      outcomeDown k (Token.down k) (wordToken file start chars stop) := by
  unfold wordToken
  split
  · dsimp only
    split <;> rfl
  · rfl
  · rename_i cause hword
    rw [outcomeDown, Error.down, down_of_ofWord hword]
    rfl

namespace Mode

theorem begin_down (p : Position) (c : Char) :
    begin (p.down k) c = Prod.map (List.map (Token.down k)) (down k) (begin p c) := by
  unfold begin
  split
  · rfl
  · split <;> rfl

theorem step_down (p : Position) (c : Char) (mode : Mode) : (mode.down k).step file (p.down k) c =
    outcomeDown k (Prod.map (List.map (Token.down k)) (down k)) (mode.step file p c) := by
  cases mode with
  | between => exact congrArg Except.ok (begin_down p c)
  | comment =>
    simp only [down, step]
    split <;> rfl
  | word start chars =>
    simp only [down, step]
    split
    · rw [wordToken_down, begin_down]
      exact outcomeDown_bind fun t => rfl
    · rfl
  | text start chars =>
    simp only [down, step]
    split
    · rfl
    split <;> rfl
  | escape start chars => rfl
  | tilde start =>
    simp only [down, step]
    split
    · rfl
    · rw [begin_down]
      rfl

theorem finish_down (p : Position) (mode : Mode) :
    (mode.down k).finish file (p.down k) = outcomeDown k (List.map (Token.down k)) (mode.finish file p) := by
  cases mode with
  | word start chars =>
    simp only [down, finish]
    rw [wordToken_down]
    exact outcomeDown_bind fun t => rfl
  | _ => rfl

/-- If a text can end here, a line break can stand here as well. -/
theorem step_newline {mode : Mode} {p : Position} {last : List Token} (h : mode.finish file p = .ok last) :
    mode.step file p '\n' = .ok (last, between) := by
  cases mode with
  | between | comment | tilde =>
    cases h
    rfl
  | word start chars =>
    obtain ⟨t, ht, h⟩ := except_bind_eq_ok.1 h
    cases h
    exact except_bind_eq_ok.2 ⟨t, ht, rfl⟩
  | text | escape => cases h

end Mode

namespace Tokens

theorem scanFrom_down (found : List Token) (mode : Mode) (p : Position) (cs : List Char) :
    scanFrom file (found.map (.down k)) (mode.down k) (p.down k) cs =
      outcomeDown k (down k) (scanFrom file found mode p cs) := by
  induction cs generalizing found mode p with
  | nil =>
    rw [scanFrom, scanFrom, Mode.finish_down]
    refine outcomeDown_bind fun last => congrArg Except.ok ?_
    simp [down]
  | cons c cs ih =>
    rw [scanFrom, scanFrom, Mode.step_down]
    refine outcomeDown_bind fun r => ?_
    obtain ⟨tokens, mode⟩ := r
    rw [← ih, Position.step_down]
    simp [Prod.map]

/-- What was found before only stands before what is found. -/
theorem scanFrom_found (found : List Token) (mode : Mode) (p : Position) (cs : List Char) :
    scanFrom file found mode p cs =
      (scanFrom file [] mode p cs).map fun ts => ⟨found.reverse ++ ts.tokens, ts.stop⟩ := by
  induction cs generalizing found mode p with
  | nil =>
    rw [scanFrom, scanFrom]
    cases mode.finish file p <;> rfl
  | cons c cs ih =>
    rw [scanFrom, scanFrom]
    cases mode.step file p c with
    | error e => rfl
    | ok r =>
      obtain ⟨tokens, mode⟩ := r
      change scanFrom file _ mode _ cs = (scanFrom file _ mode _ cs).map _
      rw [ih (tokens.reverse ++ found), ih (tokens.reverse ++ [])]
      cases scanFrom file [] mode (p.step c) cs <;> simp [Except.map]

/-- Behind a text that can be scanned and a line break, no token is open. -/
theorem scanFrom_above {found : List Token} {mode : Mode} {p : Position} {cs : List Char} {ts : Tokens}
    (h : scanFrom file found mode p cs = .ok ts) (rest : List Char) :
    scanFrom file found mode p (cs ++ '\n' :: rest) =
      scanFrom file ts.tokens.reverse .between (ts.stop.step '\n') rest := by
  induction cs generalizing found mode p with
  | nil =>
    obtain ⟨last, hlast, h⟩ := except_bind_eq_ok.1 h
    cases h
    rw [List.nil_append, scanFrom, Mode.step_newline hlast, List.reverse_append, List.reverse_reverse]
    rfl
  | cons c cs ih =>
    obtain ⟨⟨tokens, mode'⟩, hstep, h⟩ := except_bind_eq_ok.1 h
    rw [List.cons_append, scanFrom, hstep]
    exact ih h

end Tokens

/-! ## The reader further down -/

namespace Value

theorem buildAtom_down (name : String) (info : Info) :
    buildAtom name (info.down k) = outcomeDown k (down k) (buildAtom name info) := by
  unfold buildAtom
  split <;> rfl

theorem buildRemote_down (module function : String) (info : Info) :
    buildRemote module function (info.down k) = outcomeDown k (down k) (buildRemote module function info) := by
  unfold buildRemote
  rw [buildAtom_down, buildAtom_down]
  exact outcomeDown_bind fun m => outcomeDown_bind fun f => rfl

end Value

theorem headOfName_down (p : Position) (name : String) :
    headOfName file (p.down k) name = outcomeDown k (Value.down k) (headOfName file p name) := by
  unfold headOfName
  dsimp only
  split
  · rfl
  split
  · rfl
  · exact Value.buildRemote_down _ _ p.info

namespace Frame

def down (k : Nat) : Frame → Frame
  | operand sign start => operand sign (start.down k)
  | head start => head (start.down k)
  | form start h args => form (start.down k) (h.down k) (args.map (.down k))
  | list start items => list (start.down k) (items.map (.down k))
  | pair start items => pair (start.down k) (items.map (.down k))

end Frame

def Progress.down (k : Nat) : Progress → Progress
  | finished v => finished (v.down k)
  | unfinished frames => unfinished (frames.map (.down k))

namespace Frame

theorem complete_down (v : Value) (frames : List Frame) :
    complete (v.down k) (frames.map (down k)) = (complete v frames).down k := by
  induction frames generalizing v with
  | nil => rfl
  | cons frame rest ih =>
    cases frame with
    | operand sign start => exact ih (.call sign.form [v] start.info)
    | _ => rfl

theorem shift_down (t : Token) (frames : List Frame) : shift file (t.down k) (frames.map (down k)) =
    outcomeDown k (Progress.down k) (shift file t frames) := by
  obtain ⟨l, p⟩ := t
  cases l with
  | atom name => exact congrArg Except.ok (complete_down (.atom name) frames)
  | text s => exact congrArg Except.ok (complete_down (.text s) frames)
  | number n => exact congrArg Except.ok (complete_down (.number n) frames)
  | var name => exact congrArg Except.ok (complete_down (.var name .direct p.info) frames)
  | _ => rfl

theorem shiftHead_down (t : Token) (start : Position) (frames : List Frame) :
    shiftHead file (t.down k) (start.down k) (frames.map (down k)) =
      outcomeDown k (Progress.down k) (shiftHead file t start frames) := by
  obtain ⟨l, p⟩ := t
  cases l with
  | atom name =>
    have hname : headOfName file (p.down k) name = _ := headOfName_down p name
    change (headOfName file (p.down k) name >>= _) = outcomeDown k _ (headOfName file p name >>= _)
    rw [hname]
    exact outcomeDown_bind fun h => rfl
  | langle => exact @shift_down k file ⟨.langle, p⟩ (head start :: frames)
  | var name => exact @shift_down k file ⟨.var name, p⟩ (head start :: frames)
  | sign s =>
    cases s with
    | unquote => exact @shift_down k file ⟨.sign .unquote, p⟩ (head start :: frames)
    | _ => rfl
  | _ => rfl

theorem step_down (t : Token) (frames : List Frame) : step file (t.down k) (frames.map (down k)) =
    outcomeDown k (Progress.down k) (step file t frames) := by
  have hshift := @shift_down k file t frames
  obtain ⟨l, p⟩ := t
  cases frames with
  | nil => exact hshift
  | cons frame rest =>
    cases frame with
    | operand => exact hshift
    | head start => exact shiftHead_down ⟨l, p⟩ start rest
    | form start h args =>
      cases l with
      | rangle =>
        refine congrArg Except.ok (Eq.trans ?_ (complete_down (Value.withHead h args.reverse start.info) rest))
        rw [Value.down_withHead, List.map_reverse]
        rfl
      | _ => exact hshift
    | list start items =>
      cases l with
      | rparen =>
        refine congrArg Except.ok (Eq.trans ?_ (complete_down (.list items.reverse) rest))
        rw [Value.down, Value.downAll_eq_map, List.map_reverse]
      | _ => exact hshift
    | pair start items =>
      cases l with
      | rbracket =>
        have hsize : (items.map (Value.down k)).length = items.length := List.length_map _
        rcases items with _ | ⟨right, _ | ⟨left, _ | ⟨_, items⟩⟩⟩
        · rfl
        · rfl
        · exact congrArg Except.ok (complete_down (Value.pair left right) rest)
        · exact congrArg (fun n => Except.error (Error.located (.pairSize n) (start.info.down k) (some file))) hsize
      | _ => exact hshift

theorem endCause_down (frames : List Frame) : endCause (frames.map (down k)) = (endCause frames).down k := by
  cases frames with
  | nil => rfl
  | cons frame rest => cases frame <;> rfl

end Frame

theorem readForms_down (stop : Position) (found : List Value) (frames : List Frame) (ts : List Token) :
    readForms file (stop.down k) (found.map (.down k)) (frames.map (.down k)) (ts.map (.down k)) =
      outcomeDown k (List.map (.down k)) (readForms file stop found frames ts) := by
  induction ts generalizing found frames with
  | nil =>
    rw [List.map_nil, readForms, readForms, List.isEmpty_map, Frame.endCause_down]
    split
    · rw [← List.map_reverse]
      rfl
    · rfl
  | cons t ts ih =>
    rw [List.map_cons, readForms, readForms, Frame.step_down]
    refine outcomeDown_bind fun progress => ?_
    cases progress with
    | finished v => exact ih (v :: found) []
    | unfinished frames => exact ih found frames

/-- What was found before only stands before what is found. -/
theorem readForms_found (stop : Position) (found : List Value) (frames : List Frame) (ts : List Token) :
    readForms file stop found frames ts = (readForms file stop [] frames ts).map (found.reverse ++ ·) := by
  induction ts generalizing found frames with
  | nil =>
    rw [readForms, readForms]
    split
    · simp [Except.map]
    · rfl
  | cons t ts ih =>
    rw [readForms, readForms]
    cases Frame.step file t frames with
    | error e => rfl
    | ok progress =>
      cases progress with
      | finished v =>
        change readForms file stop (v :: found) [] ts = (readForms file stop [v] [] ts).map _
        rw [ih (v :: found), ih [v]]
        cases readForms file stop [] [] ts <;> simp [Except.map]
      | unfinished frames => exact ih found frames

/-- Behind tokens that can be read, no construct is open. -/
theorem readForms_above {stop : Position} {found : List Value} {frames : List Frame} {ts : List Token} {vs : List Value}
    (h : readForms file stop found frames ts = .ok vs) (stop' : Position) (ts' : List Token) :
    readForms file stop' found frames (ts ++ ts') = readForms file stop' vs.reverse [] ts' := by
  induction ts generalizing found frames with
  | nil =>
    rw [readForms] at h
    split at h
    · rename_i hframes
      cases h
      rw [List.isEmpty_iff.1 hframes, List.reverse_reverse, List.nil_append]
    · cases h
  | cons t ts ih =>
    obtain ⟨progress, hstep, h⟩ := except_bind_eq_ok.1 h
    rw [List.cons_append, readForms, hstep]
    cases progress with
    | finished v => exact ih h
    | unfinished frames => exact ih h

/-! ## Source texts -/

theorem Position.step_newline (p : Position) : p.step '\n' = Position.start.down p.line :=
  congrArg (Position.mk · 1) (Nat.add_comm p.line 1)

namespace Tokens

/-- The tokens of two texts, one below the other. -/
def above (ts ts' : Tokens) : Tokens :=
  ⟨ts.tokens ++ ts'.tokens, ts'.stop⟩

theorem scan_below {s : String} {ts : Tokens} (h : scan file s = .ok ts) (s' : String) :
    scan file (s ++ "\n" ++ s') =
      outcomeDown ts.stop.line (fun ts' => ts.above (ts'.down ts.stop.line)) (scan file s') := by
  have htext : (s ++ "\n" ++ s').toList = s.toList ++ '\n' :: s'.toList := by simp
  have hbelow : scanFrom file [] .between (Position.start.down ts.stop.line) s'.toList = _ :=
    scanFrom_down [] .between .start s'.toList
  rw [scan, htext, scanFrom_above h, Position.step_newline, scanFrom_found, hbelow, List.reverse_reverse, scan]
  cases scanFrom file [] .between .start s'.toList <;> rfl

theorem read_above {ts : Tokens} {vs : List Value} (h : ts.read file = .ok vs) (ts' : Tokens) :
    (ts.above (ts'.down k)).read file = outcomeDown k (fun vs' => vs ++ vs'.map (.down k)) (ts'.read file) := by
  have hbelow : readForms file (ts'.stop.down k) [] [] (ts'.tokens.map (.down k)) = _ :=
    readForms_down ts'.stop [] [] ts'.tokens
  rw [read, above, down, readForms_above h, readForms_found, hbelow, List.reverse_reverse, read]
  cases readForms file ts'.stop [] [] ts'.tokens <;> rfl

end Tokens

/-- A text that stands below one that can be read, with a line break in between, is read as it is by itself, only
further down: by one line and as many as there are line breaks in the text above. If it can be read, so can the two
texts together, and its forms follow those of the text above. If it cannot be read, the error is the one for the text
by itself, further down and of the same class. -/
theorem readSource_below {file s : String} {vs : List Value} (h : readSource file s = .ok vs) (s' : String) :
    let k := 1 + s.toList.count '\n'
    ((∃ ws, readSource file (s ++ "\n" ++ s') = .ok ws) ↔ ∃ vs', readSource file s' = .ok vs') ∧
      (∀ vs', readSource file s' = .ok vs' → readSource file (s ++ "\n" ++ s') = .ok (vs ++ vs'.map (.down k))) ∧
      ∀ e, readSource file s' = .error e →
        readSource file (s ++ "\n" ++ s') = .error (e.down k) ∧ (e.down k).errorClass = e.errorClass := by
  obtain ⟨ts, hscan, hread⟩ := except_bind_eq_ok.1 h
  have hline : ts.stop.line = 1 + s.toList.count '\n' := by
    rw [(scan_eq_ok_iff.1 hscan).1]
    rfl
  have hboth : readSource file (s ++ "\n" ++ s') =
      outcomeDown ts.stop.line (fun vs' => vs ++ vs'.map (.down ts.stop.line)) (readSource file s') := by
    rw [readSource, Tokens.scan_below hscan]
    exact outcomeDown_bind (Tokens.read_above hread)
  rw [hline] at hboth
  dsimp only
  rw [hboth]
  cases readSource file s' with
  | ok vs' => simp [outcomeDown]
  | error e => simp [outcomeDown, Error.errorClass_down]

/-- The text above ends within a comment on its second line, and the one below in an open list. -/
theorem readSource_below_comment :
    readSource "" "a\n<f .x> ; done" = .ok [.atom "a", .call "f" [.var "x" .direct (.read 2 4)] (.read 2 1)] ∧
      readSource "" "<g .y>" = .ok [.call "g" [.var "y" .direct (.read 1 4)] (.read 1 1)] ∧
      readSource "" ("a\n<f .x> ; done" ++ "\n" ++ "<g .y>") =
        .ok [.atom "a", .call "f" [.var "x" .direct (.read 2 4)] (.read 2 1),
          .call "g" [.var "y" .direct (.read 3 4)] (.read 3 1)] ∧
      readSource "" "(1" = .error (.reading "" (some ⟨1, 3⟩) (.unterminated "list" ⟨1, 1⟩)) ∧
      readSource "" ("a\n<f .x> ; done" ++ "\n" ++ "(1") =
        .error (.reading "" (some ⟨3, 3⟩) (.unterminated "list" ⟨3, 1⟩)) := by
  have habove : readSource "" "a\n<f .x> ; done" =
      .ok [.atom "a", .call "f" [.var "x" .direct (.read 2 4)] (.read 2 1)] := rfl
  refine ⟨habove, rfl, (readSource_below habove "<g .y>").2.1 _ rfl, rfl, ?_⟩
  exact ((readSource_below habove "(1").2.2 _ rfl).1

end MacroLang
