import Mathlib.Data.List.Forall2
import MacroLang.Proofs.Source.Acceptance
import MacroLang.Proofs.Source.Coverage

/-!
# Where tokens and nodes begin

The tokens of a source text cover it, and each has the line and column where its text starts. Hence each call and each
variable that is read from the text carries the line and column of its first character: the nodes, in the order in which
they are written, belong one to one to the tokens that a node can start with (`nodeStarts`).

Main statement: `scan_covers_source`.
-/

namespace MacroLang

/-! ## Nodes and the tokens that they start with -/

namespace Value

mutual

/-- The calls and variables in a value, in the order in which they are written. -/
def nodes : Value → List Value
  | call name args info => call name args info :: nodesAll args
  | apply head args info => apply head args info :: (nodes head ++ nodesAll args)
  | var name c info => [var name c info]
  | list items | tuple items => nodesAll items
  | unquote v _ | splice v _ => nodes v
  | _ => []

def nodesAll : List Value → List Value
  | [] => []
  | v :: vs => nodes v ++ nodesAll vs

end

/-- The node is read from tokens of which this one is the first. -/
def StartsWith (t : Token) : Value → Prop
  | call name args info => info = t.position.info ∧ (t.lexeme = .langle ∨
      (∃ sign v, t.lexeme = .sign sign ∧ name = sign.form ∧ args = [v]) ∨
      ∃ module function, t.lexeme = .atom (module ++ "." ++ function) ∧ name = "." ∧
        args = [atom module, atom function])
  | apply _ _ info => info = t.position.info ∧ t.lexeme = .langle
  | var name _ info => info = t.position.info ∧ t.lexeme = .var name
  | _ => False

/-- The node carries the line and column of the offset, and there the source text shows what such a node begins with. -/
def BeginsAt (source : List Char) (k : Nat) : Value → Prop
  | call name args info => info = (Position.after (source.take k)).info ∧ (['<'] <+: source.drop k ∨
      (∃ (sign : Sign) (v : Value), name = sign.form ∧ args = [v] ∧ sign.spelling.toList <+: source.drop k) ∨
      ∃ module function, name = "." ∧ args = [atom module, atom function] ∧
        (module ++ "." ++ function).toList <+: source.drop k)
  | apply _ _ info => info = (Position.after (source.take k)).info ∧ ['<'] <+: source.drop k
  | var name _ info => info = (Position.after (source.take k)).info ∧ '.' :: name.toList <+: source.drop k
  | _ => False

end Value

namespace Grammar

instance (name : String) : Decidable (IsDotted name) :=
  inferInstanceAs (Decidable (_ ∧ _ ∧ _))

end Grammar

/-- Can a node start with the token? A dotted name starts one directly behind an opening angle bracket. -/
def Lexeme.startsNode (atHead : Bool) : Lexeme → Bool
  | langle | sign _ | var _ => true
  | atom name => atHead && decide (Grammar.IsDotted name)
  | _ => false

/-- The tokens that a node starts with. -/
def nodeStarts (atHead : Bool) : List Token → List Token
  | [] => []
  | t :: ts => (if t.lexeme.startsNode atHead then [t] else []) ++ nodeStarts (t.lexeme matches .langle) ts

theorem mem_of_mem_nodeStarts {atHead : Bool} {ts : List Token} {t : Token} (h : t ∈ nodeStarts atHead ts) :
    t ∈ ts := by
  induction ts generalizing atHead with
  | nil => cases h
  | cons u ts ih =>
    rcases List.mem_append.1 h with h | h
    · split at h
      · rw [List.mem_singleton.1 h]
        exact List.mem_cons_self
      · cases h
    · exact List.mem_cons_of_mem _ (ih h)

namespace Grammar

theorem Head.nodes_applied (d : Head) (args : List Value) (info : Info) :
    (d.applied args info).nodes = d.applied args info :: (d.read.nodes ++ Value.nodesAll args) := by
  cases d <;> simp [Head.applied, Head.read, Value.nodes]

theorem Head.startsWith_applied (d : Head) (args : List Value) (p : Position) :
    (d.applied args p.info).StartsWith ⟨.langle, p⟩ := by
  cases d <;> simp [Head.applied, Value.StartsWith]

/-- The nodes, and the tokens that nodes start with, belong to each other in order. -/
abbrev Paired (vs : List Value) (ts : List Token) : Prop :=
  List.Forall₂ (fun v t => v.StartsWith t) vs ts

mutual

theorem Form.paired (f : Form) (vs : List Value) (rest : List Token) (h : Paired vs (nodeStarts false rest)) :
    Paired (f.value.nodes ++ vs) (nodeStarts false (f.tokens ++ rest)) := by
  cases f with
  | signed sign p operand =>
    have hoperand := Form.paired operand vs rest h
    refine .cons ⟨rfl, .inr (.inl ⟨sign, operand.value, rfl, rfl, rfl⟩)⟩ ?_
    simpa [Value.nodesAll] using hoperand
  | call c => exact Call.paired c false vs rest h
  | list start items stop =>
    have hitems := Form.pairedAll items vs (⟨.rparen, stop⟩ :: rest) h
    simpa [Form.value, Form.tokens, Value.nodes, nodeStarts, Lexeme.startsNode] using hitems
  | pair start left right stop =>
    have hright := Form.paired right vs (⟨.rbracket, stop⟩ :: rest) h
    have hleft := Form.paired left _ _ hright
    simpa [Form.value, Form.tokens, Value.pair, Value.nodes, Value.nodesAll, nodeStarts, Lexeme.startsNode] using hleft
  | var name p => exact .cons ⟨rfl, rfl⟩ h
  | _ => exact h
termination_by structural f

theorem Form.pairedAll (fs : List Form) (vs : List Value) (rest : List Token) (h : Paired vs (nodeStarts false rest)) :
    Paired (Value.nodesAll (Form.valueAll fs) ++ vs) (nodeStarts false (Form.tokensAll fs ++ rest)) := by
  cases fs with
  | nil => exact h
  | cons f fs =>
    have hfirst := Form.paired f _ _ (Form.pairedAll fs vs rest h)
    rwa [Form.valueAll, Form.tokensAll, Value.nodesAll, List.append_assoc, List.append_assoc]
termination_by structural fs

theorem Call.paired (c : Call) (atHead : Bool) (vs : List Value) (rest : List Token)
    (h : Paired vs (nodeStarts false rest)) :
    Paired (c.value.nodes ++ vs) (nodeStarts atHead (c.tokens ++ rest)) := by
  obtain ⟨start, head, args, stop⟩ := c
  have hargs := Form.pairedAll args vs (⟨.rangle, stop⟩ :: rest) h
  have hhead := Head.paired head _ _ hargs
  rw [Call.value, Head.nodes_applied]
  refine .cons (head.startsWith_applied _ start) ?_
  simpa using hhead
termination_by structural c

theorem Head.paired (d : Head) (vs : List Value) (rest : List Token) (h : Paired vs (nodeStarts false rest)) :
    Paired (d.read.nodes ++ vs) (nodeStarts true (d.tokens ++ rest)) := by
  cases d with
  | plain name p hname =>
    simpa [Head.read, Head.tokens, Value.nodes, nodeStarts, Lexeme.startsNode, hname] using h
  | remote module function p hjoins =>
    have hstarts : Lexeme.startsNode true (.atom (module ++ "." ++ function)) = true := by
      simp [Lexeme.startsNode, hjoins.isDotted]
    simp only [Head.tokens, nodeStarts, List.cons_append, hstarts]
    exact .cons ⟨rfl, .inr (.inr ⟨module, function, rfl, rfl, rfl⟩)⟩ h
  | var name p => exact .cons ⟨rfl, rfl⟩ h
  | call c => exact Call.paired c true vs rest h
  | unquoted p operand =>
    have hoperand := Form.paired operand vs rest h
    refine .cons ⟨rfl, .inr (.inl ⟨.unquote, operand.value, rfl, rfl, rfl⟩)⟩ ?_
    simpa [Value.nodesAll] using hoperand
termination_by structural d

end

end Grammar

/-! ## Tokens at their offsets -/

theorem eq_of_ofWord_var {word : List Char} {name : String} (h : Lexeme.ofWord word = .ok (.var name)) :
    word = '.' :: name.toList := by
  unfold Lexeme.ofWord at h
  split at h
  · cases h
  · cases h
  · rename_i name' _ _ hvariable
    split at h
    · cases h
    · cases h
      unfold variableOfWord? at hvariable
      split at hvariable
      · split at hvariable
        · cases hvariable
          rw [String.toList_ofList]
        · cases hvariable
      · cases hvariable
  · cases h

theorem Covers.exists_offset {file : String} {before rest : List Char} {offsets : List Nat} {ts : List Token}
    {t : Token} (h : Covers file before offsets ts rest) (ht : t ∈ ts) : ∃ k, (k, t) ∈ offsets.zip ts := by
  induction h with
  | stop _ => cases ht
  | token _ _ _ _ _ ih =>
    rcases List.mem_cons.1 ht with rfl | ht
    · exact ⟨_, List.mem_cons_self⟩
    · obtain ⟨k, hk⟩ := ih ht
      exact ⟨k, List.mem_cons_of_mem _ hk⟩

/-- At its offset, the text of a token goes on with its spelling, and the token has the line and column of the
offset. -/
theorem Covers.at_offset {file : String} {before rest : List Char} {offsets : List Nat} {ts : List Token} {k : Nat}
    {t : Token} (h : Covers file before offsets ts rest) (hk : (k, t) ∈ offsets.zip ts) :
    t.position = .after ((before ++ rest).take k) ∧
      ∃ written, t.lexeme.SpelledBy written ∧ written <+: (before ++ rest).drop k := by
  induction h with
  | stop _ => simp at hk
  | @token before gap written rest offsets l ts _ hwritten _ _ _ ih =>
    rcases List.mem_cons.1 hk with hfirst | hlater
    · cases hfirst
      have hsource : before ++ (gap ++ (written ++ rest)) = (before ++ gap) ++ (written ++ rest) := by simp
      rw [hsource, List.take_left, List.drop_left]
      exact ⟨rfl, written, hwritten, List.prefix_append written rest⟩
    · have hothers := ih hlater
      have hsource : before ++ (gap ++ (written ++ rest)) = before ++ gap ++ written ++ rest := by simp
      rwa [hsource]

/-- A node begins where its first token does. -/
theorem Value.StartsWith.beginsAt {v : Value} {t : Token} {source written : List Char} {k : Nat} (h : v.StartsWith t)
    (hposition : t.position = .after (source.take k)) (hwritten : t.lexeme.SpelledBy written)
    (htext : written <+: source.drop k) : v.BeginsAt source k := by
  obtain ⟨l, p⟩ := t
  cases hposition
  cases v with
  | call name args info =>
    obtain ⟨hinfo, rfl | ⟨sign, v, rfl, hname, hargs⟩ | ⟨module, function, rfl, hname, hargs⟩⟩ := h
    · cases hwritten
      exact ⟨hinfo, .inl htext⟩
    · refine ⟨hinfo, .inr (.inl ⟨sign, v, hname, hargs, ?_⟩)⟩
      cases sign <;> cases hwritten <;> exact htext
    · refine ⟨hinfo, .inr (.inr ⟨module, function, hname, hargs, ?_⟩)⟩
      rwa [eq_of_ofWord_atom hwritten.ofWord, String.toList_ofList]
  | apply head args info =>
    obtain ⟨hinfo, rfl⟩ := h
    cases hwritten
    exact ⟨hinfo, htext⟩
  | var name c info =>
    obtain ⟨hinfo, rfl⟩ := h
    refine ⟨hinfo, ?_⟩
    rwa [← eq_of_ofWord_var hwritten.ofWord]
  | _ => exact h.elim

/-! ## How scanning ends -/

/-- The errors of the scanner: an objection at a position, or an integer that is too long. -/
def ScanError (file : String) (e : Error) : Prop :=
  (∃ p cause, e = .reading file (some p) cause) ∨ ∃ n, e = .usage (.digitLimit (some n))

theorem scanError_of_wordToken {file : String} {start stop : Position} {chars : List Char} {e : Error}
    (h : wordToken file start chars stop = .error e) : ScanError file e := by
  unfold wordToken at h
  split at h
  · dsimp only at h
    split at h
    · cases h
    · cases h
      exact .inr ⟨_, rfl⟩
  · cases h
  · cases h
    exact .inl ⟨stop, _, rfl⟩

theorem Mode.scanError_of_step {file : String} {mode : Mode} {p : Position} {c : Char} {e : Error}
    (h : mode.step file p c = .error e) : ScanError file e := by
  cases mode with
  | word start chars =>
    rw [step] at h
    split at h
    · obtain hword | ⟨t, -, hnext⟩ := except_bind_eq_error.1 h
      · exact scanError_of_wordToken hword
      · cases hnext
    · cases h
  | text start chars =>
    rw [step] at h
    split at h
    · cases h
    · split at h <;> cases h
  | tilde start =>
    rw [step] at h
    split at h <;> cases h
  | _ => cases h

theorem Mode.scanError_of_finish {file : String} {mode : Mode} {p : Position} {e : Error}
    (h : mode.finish file p = .error e) : ScanError file e := by
  cases mode with
  | word start chars =>
    obtain hword | ⟨t, -, hnext⟩ := except_bind_eq_error.1 h
    · exact scanError_of_wordToken hword
    · cases hnext
  | text start chars =>
    cases h
    exact .inl ⟨p, _, rfl⟩
  | escape start chars =>
    cases h
    exact .inl ⟨p, _, rfl⟩
  | _ => cases h

theorem scanError_of_scanFrom {file : String} {found : List Token} {mode : Mode} {p : Position} {cs : List Char}
    {e : Error} (h : Tokens.scanFrom file found mode p cs = .error e) : ScanError file e := by
  induction cs generalizing found mode p with
  | nil =>
    rw [Tokens.scanFrom] at h
    obtain hfinish | ⟨ts, -, hnext⟩ := except_bind_eq_error.1 h
    · exact Mode.scanError_of_finish hfinish
    · cases hnext
  | cons c cs ih =>
    rw [Tokens.scanFrom] at h
    obtain hstep | ⟨r, -, hnext⟩ := except_bind_eq_error.1 h
    · exact Mode.scanError_of_step hstep
    · exact ih hnext

/-! ## Source texts -/

/-- Scanning a source text ends with tokens or with an error. It ends with tokens exactly if these cover the text: they
start at increasing offsets, with the lines and columns of these offsets, in between there are only blanks and comments,
and the text of a token by itself is scanned into that token. The calls and variables that are read from the text belong
one to one, in the order in which they are written, to the tokens that they start with, and carry the lines and columns
of their first characters. -/
theorem scan_covers_source (file source : String) :
    ((∃ e, Tokens.scan file source = .error e ∧ ScanError file e) ∨ ∃ ts, Tokens.scan file source = .ok ts) ∧
    (∀ ts : Tokens, Tokens.scan file source = .ok ts ↔ ts.stop = .after source.toList ∧
      ∃ offsets : List Nat, offsets.Pairwise (· < ·) ∧ Covers file [] offsets ts.tokens source.toList) ∧
    ∀ vs, readSource file source = .ok vs → ∃ (ts : Tokens) (offsets : List Nat),
      Tokens.scan file source = .ok ts ∧ Covers file [] offsets ts.tokens source.toList ∧
        List.Forall₂ (fun v t => ∃ k, (k, t) ∈ offsets.zip ts.tokens ∧ v.BeginsAt source.toList k)
          (Value.nodesAll vs) (nodeStarts false ts.tokens) := by
  refine ⟨?_, fun ts => ?_, fun vs h => ?_⟩
  · cases h : Tokens.scan file source with
    | error e => exact .inl ⟨e, rfl, scanError_of_scanFrom h⟩
    | ok ts => exact .inr ⟨ts, rfl⟩
  · rw [scan_eq_ok_iff]
    constructor
    · rintro ⟨hstop, offsets, hcovers⟩
      exact ⟨hstop, offsets, hcovers.offsets_lt.2, hcovers⟩
    · rintro ⟨hstop, offsets, -, hcovers⟩
      exact ⟨hstop, offsets, hcovers⟩
  · obtain ⟨ts, hscan, hread⟩ := except_bind_eq_ok.1 h
    obtain ⟨-, offsets, hcovers⟩ := scan_eq_ok_iff.1 hscan
    obtain ⟨fs, htokens, rfl⟩ := Grammar.derived_of_read hread
    refine ⟨ts, offsets, hscan, hcovers, ?_⟩
    have hpaired := Grammar.Form.pairedAll fs [] [] .nil
    rw [List.append_nil, List.append_nil, htokens] at hpaired
    have hoffset : ∀ t ∈ nodeStarts false ts.tokens, ∃ k, (k, t) ∈ offsets.zip ts.tokens :=
      fun t ht => hcovers.exists_offset (mem_of_mem_nodeStarts ht)
    refine ((List.forall₂_and_left _ _).2 ⟨hoffset, hpaired.flip⟩).flip.imp ?_
    intro v t h
    obtain ⟨⟨k, hk⟩, hstarts⟩ := h
    obtain ⟨hposition, written, hwritten, htext⟩ := hcovers.at_offset hk
    exact ⟨k, hk, Value.StartsWith.beginsAt hstarts hposition hwritten htext⟩

/-- A call of a module's function with an unquoted variable, behind a comment. -/
def commentedCode : String :=
  "; c\n <A.b ~.x>"

/-- It has four nodes, which begin at `<`, at the name, at `~` and at the dot. -/
theorem scan_covers_source_remote :
    readSource "" commentedCode = .ok [.apply (.call "." [.atom "A", .atom "b"] (Info.read 2 3))
      [.call "unquote" [.var "x" .direct (Info.read 2 8)] (Info.read 2 7)] (Info.read 2 2)] ∧
    ∃ (ts : Tokens) (offsets : List Nat),
      Tokens.scan "" commentedCode = .ok ts ∧ Covers "" [] offsets ts.tokens commentedCode.toList ∧
        List.Forall₂ (fun v t => ∃ k, (k, t) ∈ offsets.zip ts.tokens ∧ v.BeginsAt commentedCode.toList k)
          (Value.nodesAll [.apply (.call "." [.atom "A", .atom "b"] (Info.read 2 3))
            [.call "unquote" [.var "x" .direct (Info.read 2 8)] (Info.read 2 7)] (Info.read 2 2)])
          (nodeStarts false ts.tokens) := by
  refine (fun hread => ⟨hread, (scan_covers_source "" commentedCode).2.2 _ hread⟩) ?_
  rfl

end MacroLang
