import MacroLang.Proofs.Source.Grammar
import MacroLang.Proofs.Source.RoundTrip

/-!
# What the reader accepts

The reader accepts the tokens that have a derivation in the grammar, with the values that it denotes, and objects to
all others (`read_iff_derived`). It reads the tokens of a derivation as its value, whatever is open around it
(`Form.reads`). Conversely, the frames that are open always stand for the beginning of a derivation of the tokens read
so far (`Opened`), and with the token that finishes a form they stand for the whole of it.
-/

namespace MacroLang.Grammar

/-! ## Heads -/

section

variable {file name : String}

theorem headOfName_of_not_isDotted (h : ¬IsDotted name) (p : Position) : headOfName file p name = .ok (.text name) := by
  have hends := Classical.not_not.1 (mt isDotted_iff.2 h)
  rw [headOfName]
  simp only [Bool.or_eq_true, decide_eq_true_eq, beq_iff_eq, or_assoc]
  rw [if_pos hends]

theorem headOfName_of_empty_segment (h : IsDotted name) (hempty : [] ∈ name.toList.splitOn '.') (p : Position) :
    headOfName file p name = .error (.reading file (some p) (.invalidRemoteName name)) := by
  have hends := isDotted_iff.1 h
  rw [headOfName]
  simp only [Bool.or_eq_true, decide_eq_true_eq, beq_iff_eq, or_assoc]
  rw [if_neg hends, if_pos (by simpa using hempty)]

end

/-- What the reader takes a head for. -/
def Head.read : Head → Value
  | .plain name _ _ => .text name
  | .remote module function p _ => .call "." [.atom module, .atom function] p.info
  | .var name p => .var name .direct p.info
  | .call c => c.value
  | .unquoted p operand => .call "unquote" [operand.value] p.info

theorem Call.isNode_value (c : Call) : c.value.isNode = true := by
  obtain ⟨start, head, args, stop⟩ := c
  cases head <;> rfl

theorem Head.withHead_read (d : Head) (args : List Value) (info : Info) :
    Value.withHead d.read args info = d.applied args info := by
  cases d with
  | call c => exact Value.withHead_of_isNode c.isNode_value args info
  | _ => rfl

/-- A name is the head of a call unless it is a dotted one with an empty segment. -/
theorem exists_head_iff (name : String) (p : Position) :
    (∃ d : Head, d.tokens = [⟨.atom name, p⟩]) ↔ (IsDotted name → [] ∉ name.toList.splitOn '.') := by
  constructor
  · rintro ⟨d, hd⟩ hdotted
    cases d with
    | plain name' p' h =>
      cases hd
      exact absurd hdotted h
    | remote module function p' h =>
      cases hd
      exact h.full
    | call c =>
      obtain ⟨start, head, args, stop⟩ := c
      cases hd
    | _ => cases hd
  · intro h
    by_cases hdotted : IsDotted name
    · obtain ⟨module, function, rfl, hjoins⟩ := exists_joins hdotted (h hdotted)
      exact ⟨.remote module function p hjoins, rfl⟩
    · exact ⟨.plain name p hdotted, rfl⟩

/-- The reader takes a name for a head, or objects to it. -/
theorem headOfName_cases (file name : String) (p : Position) :
    (∃ d : Head, d.tokens = [⟨.atom name, p⟩] ∧ headOfName file p name = .ok d.read) ∨
      headOfName file p name = .error (.reading file (some p) (.invalidRemoteName name)) := by
  by_cases hdotted : IsDotted name
  · by_cases hempty : [] ∈ name.toList.splitOn '.'
    · exact .inr (headOfName_of_empty_segment hdotted hempty p)
    · obtain ⟨module, function, rfl, hjoins⟩ := exists_joins hdotted hempty
      exact .inl ⟨.remote module function p hjoins, rfl, Value.headOfName_of_last_dot hjoins.full hjoins.last p⟩
  · exact .inl ⟨.plain name p hdotted, rfl, headOfName_of_not_isDotted hdotted p⟩

/-! ## Derivations are read -/

section

variable (file : String) (stop : Position)

mutual

theorem Form.reads (f : Form) (found : List Value) (frames : List Frame) (rest : List Token)
    (hframes : ∀ start rest, frames ≠ .head start :: rest) :
    readForms file stop found frames (f.tokens ++ rest) =
      (Frame.complete f.value frames).goOn file stop found rest := by
  cases f with
  | signed sign p operand =>
    have hstep : Frame.step file ⟨.sign sign, p⟩ frames = .ok (.unfinished (.operand sign p :: frames)) :=
      step_eq_shift_of_not_head hframes (by simp)
    have hoperand := Form.reads operand found (.operand sign p :: frames) rest (by simp)
    exact (readForms_cons hstep).trans hoperand
  | call c => exact Call.reads c found frames rest
  | list start items close =>
    have hopen : Frame.step file ⟨.lparen, start⟩ frames = .ok (.unfinished (.list start [] :: frames)) :=
      step_eq_shift_of_not_head hframes (by simp)
    have hitems := Form.readsAll items found [] (.list start) frames (⟨.rparen, close⟩ :: rest) (fun _ _ => rfl)
      (by simp)
    have hclose : Frame.step file ⟨.rparen, close⟩ (.list start (Form.valueAll items).reverse :: frames) =
      .ok (Frame.complete (.list (Form.valueAll items)) frames) := by simp [Frame.step]
    rw [List.append_nil] at hitems
    simp only [Form.tokens, Form.value, List.cons_append, List.append_assoc, List.nil_append]
    exact ((readForms_cons hopen).trans hitems).trans (readForms_cons hclose)
  | pair start left right close =>
    have hopen : Frame.step file ⟨.lbracket, start⟩ frames = .ok (.unfinished (.pair start [] :: frames)) :=
      step_eq_shift_of_not_head hframes (by simp)
    have hleft :=
      Form.reads left found (.pair start [] :: frames) (right.tokens ++ ⟨.rbracket, close⟩ :: rest) (by simp)
    have hright := Form.reads right found (.pair start [left.value] :: frames) (⟨.rbracket, close⟩ :: rest) (by simp)
    have hclose : Frame.step file ⟨.rbracket, close⟩ (.pair start [right.value, left.value] :: frames) =
      .ok (Frame.complete (.pair left.value right.value) frames) := rfl
    simp only [Form.tokens, Form.value, List.cons_append, List.append_assoc, List.nil_append]
    exact (((readForms_cons hopen).trans hleft).trans hright).trans (readForms_cons hclose)
  | _ => exact readForms_cons (step_eq_shift_of_not_head hframes (by simp))
termination_by structural f

theorem Form.readsAll (fs : List Form) (found items : List Value) (frame : List Value → Frame) (frames : List Frame)
    (rest : List Token)
    (hcomplete : ∀ v items, Frame.complete v (frame items :: frames) = .unfinished (frame (v :: items) :: frames))
    (hframe : ∀ items start rest, frame items :: frames ≠ .head start :: rest) :
    readForms file stop found (frame items :: frames) (Form.tokensAll fs ++ rest) =
      readForms file stop found (frame ((Form.valueAll fs).reverse ++ items) :: frames) rest := by
  cases fs with
  | nil => rfl
  | cons f fs =>
    have hfirst := Form.reads f found (frame items :: frames) (Form.tokensAll fs ++ rest) (hframe items)
    have hothers := Form.readsAll fs found (f.value :: items) frame frames rest hcomplete hframe
    rw [hcomplete] at hfirst
    rw [Form.tokensAll, Form.valueAll, List.append_assoc, List.reverse_cons, List.append_assoc]
    exact hfirst.trans hothers
termination_by structural fs

theorem Call.reads (c : Call) (found : List Value) (frames : List Frame) (rest : List Token) :
    readForms file stop found frames (c.tokens ++ rest) =
      (Frame.complete c.value frames).goOn file stop found rest := by
  obtain ⟨start, head, args, close⟩ := c
  have hopen : Frame.step file ⟨.langle, start⟩ frames = .ok (.unfinished (.head start :: frames)) :=
    step_eq_shift (.inl rfl)
  have hhead := Head.reads head found start frames (Form.tokensAll args ++ ⟨.rangle, close⟩ :: rest)
  have hargs := Form.readsAll args found [] (.form start head.read) frames (⟨.rangle, close⟩ :: rest)
    (fun _ _ => rfl) (by simp)
  have hclose : Frame.step file ⟨.rangle, close⟩ (.form start head.read (Form.valueAll args).reverse :: frames) =
      .ok (Frame.complete (head.applied (Form.valueAll args) start.info) frames) := by
    simp [Frame.step, Head.withHead_read]
  rw [List.append_nil] at hargs
  simp only [Call.tokens, Call.value, List.cons_append, List.append_assoc, List.nil_append]
  exact (((readForms_cons hopen).trans hhead).trans hargs).trans (readForms_cons hclose)
termination_by structural c

theorem Head.reads (d : Head) (found : List Value) (start : Position) (frames : List Frame) (rest : List Token) :
    readForms file stop found (.head start :: frames) (d.tokens ++ rest) =
      readForms file stop found (.form start d.read [] :: frames) rest := by
  cases d with
  | plain name p h =>
    exact Value.readForms_name (t := ⟨.atom name, p⟩) rfl (headOfName_of_not_isDotted h p) start stop found rest
  | remote module function p h =>
    exact Value.readForms_name (t := ⟨.atom (module ++ "." ++ function), p⟩) rfl
      (Value.headOfName_of_last_dot h.full h.last p) start stop found rest
  | var name p =>
    have hstep : Frame.step file ⟨.var name, p⟩ (.head start :: frames) =
      .ok (.unfinished (.form start (.var name .direct p.info) [] :: frames)) := rfl
    exact readForms_cons hstep
  | call c => exact Call.reads c found (.head start :: frames) rest
  | unquoted p operand =>
    have hstep : Frame.step file ⟨.sign .unquote, p⟩ (.head start :: frames) =
      .ok (.unfinished (.operand .unquote p :: .head start :: frames)) := rfl
    have hoperand := Form.reads operand found (.operand .unquote p :: .head start :: frames) rest (by simp)
    exact (readForms_cons hstep).trans hoperand
termination_by structural d

end

/-- A sequence of forms is read as their values. -/
theorem Form.readsEach (fs : List Form) (found : List Value) :
    readForms file stop found [] (Form.tokensAll fs) = .ok (found.reverse ++ Form.valueAll fs) := by
  induction fs generalizing found with
  | nil => simp [Form.tokensAll, Form.valueAll, readForms]
  | cons f fs ih =>
    have hfirst := Form.reads file stop f found [] (Form.tokensAll fs) (by simp)
    have hothers := ih (f.value :: found)
    rw [List.reverse_cons, List.append_assoc] at hothers
    exact hfirst.trans hothers

end

/-! ## What is read has a derivation -/

/-- The innermost construct that is open waits for the head of a call. -/
def AwaitsHead (frames : List Frame) : Prop :=
  ∃ start rest, frames = .head start :: rest

/-- The open frames stand for the beginning of a derivation, which the tokens up to here are derived from. Where the
head of a call is missing, only a call or an unquoted form can be open. -/
inductive Opened : List Frame → List Token → Prop
  | nil : Opened [] []
  | operand {frames : List Frame} {ts : List Token} (sign : Sign) (p : Position) :
      Opened frames ts → (AwaitsHead frames → sign = .unquote) →
      Opened (.operand sign p :: frames) (ts ++ [⟨.sign sign, p⟩])
  | head {frames : List Frame} {ts : List Token} (start : Position) :
      Opened frames ts → Opened (.head start :: frames) (ts ++ [⟨.langle, start⟩])
  | form {frames : List Frame} {ts : List Token} (start : Position) (d : Head) (args : List Form) :
      Opened frames ts → Opened (.form start d.read (Form.valueAll args).reverse :: frames)
        (ts ++ ⟨.langle, start⟩ :: (d.tokens ++ Form.tokensAll args))
  | list {frames : List Frame} {ts : List Token} (start : Position) (items : List Form) :
      Opened frames ts → ¬AwaitsHead frames → Opened (.list start (Form.valueAll items).reverse :: frames)
        (ts ++ ⟨.lparen, start⟩ :: Form.tokensAll items)
  | pair {frames : List Frame} {ts : List Token} (start : Position) (items : List Form) :
      Opened frames ts → ¬AwaitsHead frames → Opened (.pair start (Form.valueAll items).reverse :: frames)
        (ts ++ ⟨.lbracket, start⟩ :: Form.tokensAll items)

/-- What the tokens up to here amount to: a form, or the beginning of one. -/
def Reached : Progress → List Token → Prop
  | .finished v, ts => ∃ f : Form, f.tokens = ts ∧ f.value = v
  | .unfinished frames, ts => Opened frames ts

theorem Form.tokensAll_concat (fs : List Form) (f : Form) :
    Form.tokensAll (fs ++ [f]) = Form.tokensAll fs ++ f.tokens := by
  simp [Form.tokensAll_append, Form.tokensAll]

theorem Form.reverse_valueAll_concat (fs : List Form) (f : Form) :
    (Form.valueAll (fs ++ [f])).reverse = f.value :: (Form.valueAll fs).reverse := by
  simp [Form.valueAll_eq_map]

section

variable {file : String} {frames : List Frame} {ts : List Token} {t : Token}

/-- A form that is finished goes into the innermost construct. -/
theorem Opened.complete (h : Opened frames ts) (f : Form)
    (hf : AwaitsHead frames → ∃ d : Head, d.tokens = f.tokens ∧ d.read = f.value) :
    Reached (Frame.complete f.value frames) (ts ++ f.tokens) := by
  induction h generalizing f with
  | nil => exact ⟨f, rfl, rfl⟩
  | @operand frames ts sign p h hsign ih =>
    have hsigned := ih (.signed sign p f) fun hhead => by
      cases hsign hhead
      exact ⟨.unquoted p f, rfl, rfl⟩
    rw [List.append_assoc]
    exact hsigned
  | @head frames ts start h ih =>
    obtain ⟨d, htokens, hread⟩ := hf ⟨start, frames, rfl⟩
    have hform := Opened.form start d [] h
    rw [hread, htokens, Form.tokensAll, List.append_nil] at hform
    rw [List.append_assoc]
    exact hform
  | @form frames ts start d args h ih =>
    have hform := Opened.form start d (args ++ [f]) h
    rw [Form.tokensAll_concat, Form.reverse_valueAll_concat] at hform
    rw [List.append_assoc, List.cons_append, List.append_assoc]
    exact hform
  | @list frames ts start items h hhead ih =>
    have hlist := Opened.list start (items ++ [f]) h hhead
    rw [Form.tokensAll_concat, Form.reverse_valueAll_concat] at hlist
    rw [List.append_assoc, List.cons_append]
    exact hlist
  | @pair frames ts start items h hhead ih =>
    have hpair := Opened.pair start (items ++ [f]) h hhead
    rw [Form.tokensAll_concat, Form.reverse_valueAll_concat] at hpair
    rw [List.append_assoc, List.cons_append]
    exact hpair

theorem Opened.shift (h : Opened frames ts) (file : String) {progress : Progress}
    (hhead : AwaitsHead frames → t.lexeme = .langle ∨ t.lexeme = .sign .unquote ∨ ∃ name, t.lexeme = .var name)
    (hshift : Frame.shift file t frames = .ok progress) : Reached progress (ts ++ [t]) := by
  obtain ⟨lexeme, p⟩ := t
  cases lexeme with
  | langle => cases hshift; exact .head p h
  | lparen =>
    cases hshift
    exact .list p [] h fun hawaits => by simpa using hhead hawaits
  | lbracket =>
    cases hshift
    exact .pair p [] h fun hawaits => by simpa using hhead hawaits
  | sign sign =>
    cases hshift
    exact .operand sign p h fun hawaits => by simpa using hhead hawaits
  | atom name =>
    cases hshift
    exact h.complete (.atom name p) fun hawaits => absurd (hhead hawaits) (by simp)
  | text s =>
    cases hshift
    exact h.complete (.text s p) fun hawaits => absurd (hhead hawaits) (by simp)
  | number n =>
    cases hshift
    exact h.complete (.number n p) fun hawaits => absurd (hhead hawaits) (by simp)
  | var name =>
    cases hshift
    exact h.complete (.var name p) fun _ => ⟨.var name p, rfl, rfl⟩
  | _ => cases hshift

theorem Opened.shiftHead (h : Opened frames ts) (start : Position) {progress : Progress}
    (hshift : Frame.shiftHead file t start frames = .ok progress) :
    Reached progress (ts ++ [⟨.langle, start⟩] ++ [t]) := by
  have hopened := Opened.head start h
  obtain ⟨lexeme, p⟩ := t
  cases lexeme with
  | atom name =>
    rcases headOfName_cases file name p with ⟨d, htokens, hname⟩ | hname
    · simp only [Frame.shiftHead, hname] at hshift
      cases hshift
      have hform := Opened.form start d [] h
      rw [htokens] at hform
      rw [List.append_assoc]
      exact hform
    · simp only [Frame.shiftHead, hname] at hshift
      cases hshift
  | langle => exact hopened.shift file (fun _ => .inl rfl) hshift
  | var name => exact hopened.shift file (fun _ => .inr (.inr ⟨name, rfl⟩)) hshift
  | sign sign => cases sign with
    | unquote => exact hopened.shift file (fun _ => .inr (.inl rfl)) hshift
    | _ => cases hshift
  | _ => cases hshift

/-- A pair has two members. -/
theorem step_rbracket {items : List Value} (h : items.length ≠ 2) (start p : Position) (frames : List Frame) :
    Frame.step file ⟨.rbracket, p⟩ (.pair start items :: frames) =
      .error (.located (.pairSize items.length) start.info (some file)) := by
  rcases items with _ | ⟨right, _ | ⟨left, _ | ⟨third, others⟩⟩⟩
  · rfl
  · rfl
  · exact absurd rfl h
  · rfl

/-- The next token leads on to a form or to the beginning of one. -/
theorem Opened.step (h : Opened frames ts) {progress : Progress} (hstep : Frame.step file t frames = .ok progress) :
    Reached progress (ts ++ [t]) := by
  obtain ⟨lexeme, p⟩ := t
  have hopened := h
  cases h with
  | nil => exact hopened.shift file (by simp [AwaitsHead]) hstep
  | operand sign q h hsign => exact hopened.shift file (by simp [AwaitsHead]) hstep
  | head start h => exact h.shiftHead start hstep
  | form start d args h => cases lexeme with
    | rangle =>
      cases hstep
      have hcall := h.complete (.call (.mk start d args p)) fun _ => ⟨.call (.mk start d args p), rfl, rfl⟩
      rw [List.reverse_reverse, Head.withHead_read, List.append_assoc, List.cons_append, List.append_assoc]
      exact hcall
    | _ => exact hopened.shift file (by simp [AwaitsHead]) hstep
  | list start items h hhead => cases lexeme with
    | rparen =>
      cases hstep
      have hlist := h.complete (.list start items p) fun hawaits => absurd hawaits hhead
      rw [List.reverse_reverse, List.append_assoc, List.cons_append]
      exact hlist
    | _ => exact hopened.shift file (by simp [AwaitsHead]) hstep
  | pair start items h hhead => cases lexeme with
    | rbracket =>
      by_cases hlength : items.length = 2
      · obtain ⟨left, right, rfl⟩ := List.length_eq_two.1 hlength
        cases hstep
        have hpair := h.complete (.pair start left right p) fun hawaits => absurd hawaits hhead
        simp only [Form.tokensAll, List.append_assoc, List.cons_append, List.append_nil]
        exact hpair
      · rw [step_rbracket (by simpa [Form.valueAll_eq_map] using hlength)] at hstep
        cases hstep
    | _ => exact hopened.shift file (by simp [AwaitsHead]) hstep

/-! ## Objections -/

/-- An objection to the tokens: at one of them or at the end of the text, or to a pair of brackets that does not enclose
two forms. -/
def Objection (file : String) (ts : Tokens) (e : Error) : Prop :=
  (∃ p cause, e = .reading file (some p) cause ∧ (p = ts.stop ∨ ∃ t ∈ ts.tokens, t.position = p)) ∨
  ∃ before start items stop after,
    ts.tokens = before ++ ⟨.lbracket, start⟩ :: (Form.tokensAll items ++ ⟨.rbracket, stop⟩ :: after) ∧
      items.length ≠ 2 ∧ e = .located (.pairSize items.length) start.info (some file)

theorem reading_of_shift (file : String) (t : Token) (frames : List Frame) {e : Error}
    (h : Frame.shift file t frames = .error e) : ∃ cause, e = .reading file (some t.position) cause := by
  obtain ⟨lexeme, p⟩ := t
  cases lexeme <;> cases h <;> exact ⟨_, rfl⟩

theorem reading_of_shiftHead {e : Error} {start : Position} (h : Frame.shiftHead file t start frames = .error e) :
    ∃ cause, e = .reading file (some t.position) cause := by
  obtain ⟨lexeme, p⟩ := t
  cases lexeme with
  | atom name =>
    rcases headOfName_cases file name p with ⟨d, -, hname⟩ | hname
    · simp only [Frame.shiftHead, hname] at h
      cases h
    · simp only [Frame.shiftHead, hname] at h
      cases h
      exact ⟨_, rfl⟩
  | langle => exact reading_of_shift file _ _ h
  | var name => exact reading_of_shift file _ _ h
  | sign sign => cases sign with
    | unquote => exact reading_of_shift file _ _ h
    | _ =>
      cases h
      exact ⟨_, rfl⟩
  | _ =>
    cases h
    exact ⟨_, rfl⟩

theorem Opened.objection (h : Opened frames ts) {e : Error} (hstep : Frame.step file t frames = .error e) :
    (∃ cause, e = .reading file (some t.position) cause) ∨
    ∃ before start items stop,
      ts ++ [t] = before ++ ⟨.lbracket, start⟩ :: (Form.tokensAll items ++ [⟨.rbracket, stop⟩]) ∧
      items.length ≠ 2 ∧ e = .located (.pairSize items.length) start.info (some file) := by
  obtain ⟨lexeme, p⟩ := t
  cases h with
  | nil => exact .inl (reading_of_shift file _ _ hstep)
  | operand sign q h hsign => exact .inl (reading_of_shift file _ _ hstep)
  | head start h => exact .inl (reading_of_shiftHead hstep)
  | @form frames _ start d args h => cases lexeme with
    | rangle => cases hstep
    | _ => exact .inl (reading_of_shift file _ (.form start d.read (Form.valueAll args).reverse :: frames) hstep)
  | @list frames _ start items h hhead => cases lexeme with
    | rparen => cases hstep
    | _ => exact .inl (reading_of_shift file _ (.list start (Form.valueAll items).reverse :: frames) hstep)
  | @pair frames ts start items h hhead => cases lexeme with
    | rbracket =>
      by_cases hlength : items.length = 2
      · obtain ⟨left, right, rfl⟩ := List.length_eq_two.1 hlength
        cases hstep
      · have hcount : (Form.valueAll items).reverse.length = items.length := by simp [Form.valueAll_eq_map]
        rw [step_rbracket (hcount ▸ hlength), hcount] at hstep
        cases hstep
        exact .inr ⟨ts, start, items, p, by simp, hlength, rfl⟩
    | _ => exact .inl (reading_of_shift file _ (.pair start (Form.valueAll items).reverse :: frames) hstep)

/-- What reading comes to: the values of a derivation of the tokens, or an objection to them. -/
def Judged (file : String) (ts : Tokens) : Except Error (List Value) → Prop
  | .ok vs => ∃ fs : List Form, Form.tokensAll fs = ts.tokens ∧ Form.valueAll fs = vs
  | .error e => Objection file ts e

theorem Opened.judged (file : String) (stop : Position) (found : List Value) (fs : List Form) (h : Opened frames ts)
    (hfound : Form.valueAll fs = found.reverse) (rest : List Token) :
    Judged file ⟨Form.tokensAll fs ++ ts ++ rest, stop⟩ (readForms file stop found frames rest) := by
  induction rest generalizing frames ts found fs with
  | nil =>
    rw [readForms]
    cases h with
    | nil => exact ⟨fs, by simp, hfound⟩
    | _ => exact .inl ⟨stop, _, rfl, .inl rfl⟩
  | cons t rest ih =>
    cases hstep : Frame.step file t frames with
    | ok progress =>
      have hreached := h.step hstep
      rw [readForms_cons hstep]
      cases progress with
      | finished v =>
        obtain ⟨f, htokens, hvalue⟩ := hreached
        have hjudged := ih (v :: found) (fs ++ [f]) .nil
          (by rw [Form.valueAll_eq_map, List.map_append, ← Form.valueAll_eq_map, hfound]; simp [hvalue])
        rw [Form.tokensAll_concat, htokens, List.append_nil, List.append_assoc, List.append_assoc] at hjudged
        rw [List.append_assoc]
        exact hjudged
      | unfinished frames' =>
        have hjudged := ih found fs hreached hfound
        rw [List.append_assoc, List.append_assoc] at hjudged
        rw [List.append_assoc]
        exact hjudged
    | error e =>
      have herror : readForms file stop found frames (t :: rest) = .error e := by rw [readForms, hstep]; rfl
      rw [herror]
      rcases h.objection hstep with ⟨cause, rfl⟩ | ⟨before, start, items, close, htokens, hlength, rfl⟩
      · exact .inl ⟨t.position, cause, rfl, .inr ⟨t, by simp, rfl⟩⟩
      · refine .inr ⟨Form.tokensAll fs ++ before, start, items, close, rest, ?_, hlength, rfl⟩
        have hall : Form.tokensAll fs ++ ts ++ t :: rest = Form.tokensAll fs ++ (ts ++ [t]) ++ rest := by simp
        rw [hall, htokens]
        simp

end

theorem derived_of_read {file : String} {ts : Tokens} {vs : List Value} (h : ts.read file = .ok vs) :
    ∃ fs : List Form, Form.tokensAll fs = ts.tokens ∧ Form.valueAll fs = vs := by
  have hjudged := Opened.judged file ts.stop [] [] .nil rfl ts.tokens
  rw [Tokens.read] at h
  rw [h] at hjudged
  exact hjudged

/-- The reader accepts the grammar. It returns values for the tokens of a source text if and only if they have a
derivation, which is the only one, and then it returns the values that the derivation denotes. A name is the head of a
call unless it has dots, none of them at an end, and an empty segment. Tokens without a derivation are refused with an
objection to one of them or to the end of the text, or to brackets that are closed after more or fewer than two
forms. -/
theorem read_iff_derived (file : String) (ts : Tokens) :
    (∀ vs, ts.read file = .ok vs ↔ ∃ fs : List Form, Form.tokensAll fs = ts.tokens ∧ Form.valueAll fs = vs) ∧
    (∀ fs fs' : List Form, Form.tokensAll fs = ts.tokens → Form.tokensAll fs' = ts.tokens → fs = fs') ∧
    (∀ name p, (∃ d : Head, d.tokens = [⟨.atom name, p⟩]) ↔ (IsDotted name → [] ∉ name.toList.splitOn '.')) ∧
    (∀ e, ts.read file = .error e → Objection file ts e) := by
  have hjudged := Opened.judged file ts.stop [] [] .nil rfl ts.tokens
  refine ⟨fun vs => ⟨fun h => ?_, ?_⟩, fun fs fs' h h' => ?_, exists_head_iff, fun e h => ?_⟩
  · rw [Tokens.read] at h
    rw [h] at hjudged
    exact hjudged
  · rintro ⟨fs, htokens, rfl⟩
    rw [Tokens.read, ← htokens, Form.readsEach]
    rfl
  · refine (Form.tokensAll_inj fs fs' [] [] ends_nil ends_nil ?_).1
    rw [h, h']
  · rw [Tokens.read] at h
    rw [h] at hjudged
    exact hjudged

/-- A call of a module's function with a quoted variable has a derivation, and brackets around a single atom have
none. -/
theorem read_iff_derived_remote :
    (⟨[⟨.langle, ⟨1, 1⟩⟩, ⟨.atom "lib.f", ⟨1, 2⟩⟩, ⟨.sign .quote, ⟨1, 8⟩⟩, ⟨.var "x", ⟨1, 9⟩⟩, ⟨.rangle, ⟨1, 11⟩⟩],
        ⟨1, 12⟩⟩ : Tokens).read "app" =
      .ok [.apply (.call "." [.atom "lib", .atom "f"] (Info.read 1 2))
        [.call "quote" [.var "x" .direct (Info.read 1 9)] (Info.read 1 8)] (Info.read 1 1)] ∧
    ¬∃ fs : List Form, Form.tokensAll fs =
      [⟨.lbracket, ⟨1, 1⟩⟩, ⟨.atom "a", ⟨1, 2⟩⟩, ⟨.rbracket, ⟨1, 3⟩⟩] := by
  have hjoins : Joins "lib" "f" := ⟨by decide, by decide⟩
  refine ⟨((read_iff_derived "app" _).1 _).2 ⟨[.call (.mk ⟨1, 1⟩ (.remote "lib" "f" ⟨1, 2⟩ hjoins)
    [.signed .quote ⟨1, 8⟩ (.var "x" ⟨1, 9⟩)] ⟨1, 11⟩)], rfl, rfl⟩, ?_⟩
  rintro ⟨fs, hfs⟩
  have hread := ((read_iff_derived "app" ⟨_, ⟨1, 4⟩⟩).1 _).2 ⟨fs, hfs, rfl⟩
  cases hread

end MacroLang.Grammar
