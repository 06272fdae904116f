import Mathlib.Data.List.Basic
import MacroLang.Proofs.Code
import MacroLang.Proofs.Source.Spelling
import MacroLang.Proofs.Tree.Equality

/-!
# Reading what was written

Written as source text and read again, a value comes back as it was, but for its annotations and the contexts of its
variables, which the text does not show (`readSource_write`). Its text is scanned into what it is written with
(`Value.spells_render`), and tokens for that are read as one value, whatever is open around it (`Value.reads`).

Integers of more than `Number.maxDigits` digits are not written at all (`write_long_integer`).
-/

namespace MacroLang

/-! ## What a text shows of a value -/

namespace Value

/-- The value without annotations and with all variables as if they were written at their place of use. -/
def erased (v : Value) : Value :=
  v.stripped fun _ => .direct

end Value

/-! ## Reading tokens in the middle of a text -/

/-- Reading goes on with what the tokens so far amount to. -/
def Progress.goOn (file : String) (stop : Position) (found : List Value) (ts : List Token) :
    Progress → Except Error (List Value)
  | finished v => readForms file stop (v :: found) [] ts
  | unfinished frames => readForms file stop found frames ts

section

variable {file : String} {stop : Position} {found : List Value} {frames : List Frame} {t : Token} {ts : List Token}

theorem readForms_cons {progress : Progress} (h : Frame.step file t frames = .ok progress) :
    readForms file stop found frames (t :: ts) = progress.goOn file stop found ts := by
  rw [readForms, h]
  cases progress <;> rfl

/-- Forms and variables may stand everywhere. -/
theorem step_eq_shift (h : t.lexeme = .langle ∨ ∃ name, t.lexeme = .var name) :
    Frame.step file t frames = Frame.shift file t frames := by
  obtain ⟨lexeme, position⟩ := t
  obtain rfl | ⟨name, rfl⟩ := h <;> cases frames with
  | nil => rfl
  | cons frame frames => cases frame <;> rfl

/-- Other values may stand everywhere but behind the opening bracket of a form. -/
theorem step_eq_shift_of_not_head (hframes : ∀ start rest, frames ≠ .head start :: rest)
    (h : t.lexeme ≠ .rangle ∧ t.lexeme ≠ .rparen ∧ t.lexeme ≠ .rbracket) :
    Frame.step file t frames = Frame.shift file t frames := by
  unfold Frame.step
  split
  · exact absurd rfl (hframes _ _)
  · exact absurd ‹_› h.1
  · exact absurd ‹_› h.2.1
  · exact absurd ‹_› h.2.2
  · rfl

end

namespace Value

/-- While the frames are open, tokens for the value are read as one value that shows the same. -/
def Reads (file : String) (frames : List Frame) (v : Value) : Prop :=
  ∀ ts : List Token, ts.map Token.lexeme = v.lexemes → ∀ stop found rest, ∃ u : Value, u.bare = v.erased ∧
    readForms file stop found frames (ts ++ rest) = (Frame.complete u frames).goOn file stop found rest

section

variable {file : String} {frames : List Frame}

/-- A value that is written with one token. -/
theorem reads_single {v : Value} {l : Lexeme} (hv : v.lexemes = [l])
    (h : ∀ t : Token, t.lexeme = l → ∃ u : Value, u.bare = v.erased ∧
      Frame.step file t frames = .ok (Frame.complete u frames)) : v.Reads file frames := by
  intro ts hts stop found rest
  rw [hv] at hts
  obtain ⟨t, rfl, ht⟩ := List.map_eq_singleton_iff.1 hts
  obtain ⟨u, hu, hstep⟩ := h t ht
  exact ⟨u, hu, readForms_cons hstep⟩

/-- A literal is read as itself, but not at the head of a form. -/
theorem reads_literal {v : Value} {l : Lexeme} (hv : v.lexemes = [l]) (hsame : v.bare = v.erased)
    (hshift : ∀ t : Token, t.lexeme = l → Frame.shift file t frames = .ok (Frame.complete v frames))
    (hframes : ∀ start rest, frames ≠ .head start :: rest) : v.Reads file frames := by
  refine reads_single hv fun t ht => ⟨v, hsame, ?_⟩
  have hread := hshift t ht
  rw [step_eq_shift_of_not_head hframes ?_, hread]
  refine ⟨fun hclose => ?_, fun hclose => ?_, fun hclose => ?_⟩ <;> rw [Frame.shift, hclose] at hread <;> cases hread

/-- Members of an open construct, one after the other. -/
theorem reads_members {frame : List Value → Frame} {vs : List Value}
    (hcomplete : ∀ u items, Frame.complete u (frame items :: frames) = .unfinished (frame (u :: items) :: frames))
    (h : ∀ v ∈ vs, ∀ items, v.Reads file (frame items :: frames)) (ts : List Token)
    (hts : ts.map Token.lexeme = lexemesAll vs) (stop : Position) (found items : List Value) (rest : List Token) :
    ∃ us : List Value, us.map bare = vs.map erased ∧
      readForms file stop found (frame items :: frames) (ts ++ rest) =
        readForms file stop found (frame (us.reverse ++ items) :: frames) rest := by
  induction vs generalizing ts items with
  | nil =>
    obtain rfl := List.map_eq_nil_iff.1 hts
    exact ⟨[], rfl, rfl⟩
  | cons v vs ih =>
    obtain ⟨ts₁, ts₂, rfl, hfirst, hothers⟩ := List.map_eq_append_iff.1 hts
    obtain ⟨u, hu, hread⟩ := h v List.mem_cons_self items ts₁ hfirst stop found (ts₂ ++ rest)
    obtain ⟨us, hus, hreads⟩ := ih (fun v hv => h v (List.mem_cons_of_mem _ hv)) ts₂ hothers (u :: items)
    refine ⟨u :: us, by rw [List.map_cons, List.map_cons, hu, hus], ?_⟩
    rw [List.append_assoc, hread, hcomplete, List.reverse_cons, List.append_assoc]
    exact hreads

/-- The frame gathers the members of the value, and the last token makes the value of them. -/
structure Gathers (file : String) (frames : List Frame) (v : Value) (vs : List Value) (last : Lexeme)
    (frame : List Value → Frame) : Prop where
  complete : ∀ u items, Frame.complete u (frame items :: frames) = .unfinished (frame (u :: items) :: frames)
  reads : ∀ w ∈ vs, ∀ items, w.Reads file (frame items :: frames)
  close : ∀ (t : Token) (us : List Value), t.lexeme = last → us.map bare = vs.map erased →
    ∃ u : Value, u.bare = v.erased ∧ Frame.step file t (frame us.reverse :: frames) = .ok (Frame.complete u frames)

/-- A value with members is read if the tokens in front of the members open a frame for it. -/
theorem reads_enclosed {v : Value} (ls : List Lexeme) {vs : List Value} {last : Lexeme}
    (hv : v.lexemes = ls ++ lexemesAll vs ++ [last])
    (hopen : ∀ ts : List Token, ts.map Token.lexeme = ls → ∀ stop found rest, ∃ frame,
      Gathers file frames v vs last frame ∧
        readForms file stop found frames (ts ++ rest) = readForms file stop found (frame [] :: frames) rest) :
    v.Reads file frames := by
  intro ts hts stop found rest
  rw [hv] at hts
  obtain ⟨ts', closing, rfl, hts', hclosing⟩ := List.map_eq_append_iff.1 hts
  obtain ⟨opening, inner, rfl, hopening, hinner⟩ := List.map_eq_append_iff.1 hts'
  obtain ⟨t, rfl, ht⟩ := List.map_eq_singleton_iff.1 hclosing
  obtain ⟨frame, hframe, hread⟩ := hopen opening hopening stop found (inner ++ t :: rest)
  obtain ⟨us, hus, hreads⟩ := reads_members hframe.complete hframe.reads inner hinner stop found [] (t :: rest)
  obtain ⟨u, hu, hclose⟩ := hframe.close t us ht hus
  refine ⟨u, hu, ?_⟩
  rw [List.append_nil] at hreads
  calc readForms file stop found frames (opening ++ inner ++ [t] ++ rest)
      = readForms file stop found frames (opening ++ (inner ++ t :: rest)) := by simp
    _ = readForms file stop found (frame [] :: frames) (inner ++ t :: rest) := hread
    _ = readForms file stop found (frame us.reverse :: frames) (t :: rest) := hreads
    _ = (Frame.complete u frames).goOn file stop found rest := readForms_cons hclose

theorem reads_list {items : List Value} (hframes : ∀ start rest, frames ≠ .head start :: rest)
    (h : ∀ v ∈ items, ∀ start read, v.Reads file (.list start read :: frames)) : (list items).Reads file frames := by
  refine reads_enclosed [.lparen] (by rw [lexemes]; rfl) fun ts hts stop found rest => ?_
  obtain ⟨t, rfl, ht⟩ := List.map_eq_singleton_iff.1 hts
  have hopen : Frame.step file t frames = .ok (.unfinished (.list t.position [] :: frames)) := by
    rw [step_eq_shift_of_not_head hframes (by simp [ht]), Frame.shift, ht]
  refine ⟨.list t.position, ⟨fun _ _ => rfl, fun v hv => h v hv _, fun t us ht hus => ?_⟩, readForms_cons hopen⟩
  refine ⟨list us, ?_, by simp only [Frame.step, ht, List.reverse_reverse]⟩
  rw [bare, erased, stripped_list, stripped_list]
  exact congrArg list hus

theorem reads_pair {left right : Value} (hframes : ∀ start rest, frames ≠ .head start :: rest)
    (h : ∀ v ∈ [left, right], ∀ start read, v.Reads file (.pair start read :: frames)) :
    (tuple [left, right]).Reads file frames := by
  refine reads_enclosed [.lbracket] (by rw [lexemes]; rfl) fun ts hts stop found rest => ?_
  obtain ⟨t, rfl, ht⟩ := List.map_eq_singleton_iff.1 hts
  have hopen : Frame.step file t frames = .ok (.unfinished (.pair t.position [] :: frames)) := by
    rw [step_eq_shift_of_not_head hframes (by simp [ht]), Frame.shift, ht]
  refine ⟨.pair t.position, ⟨fun _ _ => rfl, fun v hv => h v hv _, fun t us ht hus => ?_⟩, readForms_cons hopen⟩
  have hlength : us.length = 2 := by simpa using congrArg List.length hus
  obtain ⟨u, w, rfl⟩ := List.length_eq_two.1 hlength
  refine ⟨pair u w, ?_, by simp [Frame.step, ht]⟩
  rw [bare, erased, pair, stripped_tuple, stripped_tuple]
  exact congrArg tuple hus

/-! ### Forms -/

theorem buildRemote_ne_text (module function name : String) (info : Info) :
    buildRemote module function info ≠ .ok (text name) := by
  intro h
  obtain ⟨m, -, h⟩ := except_bind_eq_ok.1 h
  obtain ⟨f, -, h⟩ := except_bind_eq_ok.1 h
  cases h

theorem headOfName_of_isPlainHead {name : String} (h : isPlainHead name = true) (p : Position) :
    headOfName file p name = .ok (.text name) := by
  have hplain := (Bool.and_eq_true_iff.1 h).2
  split at hplain
  · rename_i heq
    unfold headOfName at heq ⊢
    dsimp only at heq ⊢
    split
    · rfl
    · rename_i hdots
      rw [if_neg hdots] at heq
      split at heq
      · cases heq
      · cases buildRemote_ne_text _ _ _ _ heq
  · cases hplain

/-- A name of several segments, none of them empty, is divided in front of the last one. -/
theorem headOfName_of_segments {name : String} {segments : List (List Char)} {last : List Char}
    (hsplit : name.toList.splitOn '.' = segments ++ [last]) (hne : segments ≠ []) (hfull : [] ∉ segments ++ [last])
    (p : Position) :
    headOfName file p name = buildRemote (String.ofList (['.'].intercalate segments)) (String.ofList last) p.info := by
  have hlength : ¬(segments ++ [last]).length < 2 := by
    have := List.length_pos_iff.2 hne
    rw [List.length_append, List.length_singleton]
    omega
  have hfirst : ¬(segments ++ [last]).head? = some [] := fun h => hfull (List.mem_of_head? h)
  have hlast : ¬(segments ++ [last]).getLast? = some [] := fun h => hfull (List.mem_of_getLast? h)
  have hall : (segments ++ [last]).contains [] = false := by simpa using hfull
  simp only [headOfName, hsplit, hall, Bool.or_eq_true, decide_eq_true_eq, beq_iff_eq]
  rw [if_neg (by simp only [hlength, hfirst, hlast, or_self, not_false_eq_true]), List.dropLast_concat,
    List.getLast?_concat]
  rfl

/-- A name without empty segments is divided at its last dot. -/
theorem headOfName_of_last_dot {module function : String}
    (hfull : [] ∉ (module ++ "." ++ function).toList.splitOn '.') (hfunction : '.' ∉ function.toList) (p : Position) :
    headOfName file p (module ++ "." ++ function) = .ok (call "." [atom module, atom function] p.info) := by
  have hname : (module ++ "." ++ function).toList = module.toList ++ '.' :: function.toList := by simp
  have hsplit : (module ++ "." ++ function).toList.splitOn '.' = module.toList.splitOn '.' ++ [function.toList] := by
    rw [hname, List.splitOn_append_cons_self, List.splitOn_eq_singleton hfunction]
  rw [hsplit] at hfull
  have hmodule : module ≠ "" := by
    rintro rfl
    exact hfull List.mem_cons_self
  have hlast : function ≠ "" := by
    rintro rfl
    exact hfull (List.mem_append_right _ List.mem_cons_self)
  rw [headOfName_of_segments hsplit (List.splitOn_ne_nil _ _) hfull, List.intercalate_splitOn, String.ofList_toList,
    String.ofList_toList]
  simp [buildRemote, buildAtom, hmodule, hlast, bind, Except.bind, pure, Except.pure]

theorem headOfName_of_isRemoteHead {module function : String} (h : isRemoteHead module function = true) (p : Position) :
    headOfName file p (module ++ "." ++ function) = .ok (call "." [atom module, atom function] p.info) := by
  simp only [isRemoteHead, Bool.and_eq_true, Bool.not_eq_true', List.contains_eq_mem, decide_eq_false_iff_not] at h
  obtain ⟨⟨-, hfull⟩, hfunction⟩ := h
  exact headOfName_of_last_dot hfull hfunction p

/-- A form is read if its head is: what the head comes to has to make the value of the arguments. -/
theorem reads_form {v : Value} (ls : List Lexeme) {args : List Value}
    (hv : v.lexemes = .langle :: (ls ++ lexemesAll args) ++ [.rangle])
    (h : ∀ a ∈ args, ∀ start head read, a.Reads file (.form start head read :: frames))
    (hhead : ∀ ts : List Token, ts.map Token.lexeme = ls → ∀ start stop found rest, ∃ head : Value,
      (∀ us info, us.map bare = args.map erased → (withHead head us info).bare = v.erased) ∧
        readForms file stop found (.head start :: frames) (ts ++ rest) =
          readForms file stop found (.form start head [] :: frames) rest) : v.Reads file frames := by
  refine reads_enclosed (.langle :: ls) hv fun ts hts stop found rest => ?_
  obtain ⟨t, ts, rfl, ht, hts⟩ := List.map_eq_cons_iff.1 hts
  have hopen : Frame.step file t frames = .ok (.unfinished (.head t.position :: frames)) := by
    rw [step_eq_shift (.inl ht), Frame.shift, ht]
  obtain ⟨head, hbuild, hread⟩ := hhead ts hts t.position stop found rest
  refine ⟨.form t.position head, ⟨fun _ _ => rfl, fun a ha => h a ha _ _, fun t' us ht' hus => ?_⟩,
    (readForms_cons hopen).trans hread⟩
  exact ⟨withHead head us t.position.info, hbuild us _ hus, by simp only [Frame.step, ht', List.reverse_reverse]⟩

/-- A name at the head of a form. -/
theorem readForms_name {t : Token} {name : String} {head : Value} (ht : t.lexeme = .atom name)
    (h : headOfName file t.position name = .ok head) (start stop : Position) (found : List Value) (rest : List Token) :
    readForms file stop found (.head start :: frames) (t :: rest) =
      readForms file stop found (.form start head [] :: frames) rest := by
  have hstep : Frame.step file t (.head start :: frames) = .ok (.unfinished (.form start head [] :: frames)) := by
    simp only [Frame.step, Frame.shiftHead, ht, h]
    rfl
  exact readForms_cons hstep

theorem reads_call {name : String} {args : List Value} {info : Info} (hname : isPlainHead name = true)
    (h : ∀ a ∈ args, ∀ start head read, a.Reads file (.form start head read :: frames)) :
    (call name args info).Reads file frames := by
  refine reads_form [.atom name] (by rw [lexemes]; rfl) h fun ts hts start stop found rest => ?_
  obtain ⟨t, rfl, ht⟩ := List.map_eq_singleton_iff.1 hts
  have hhead : headOfName file t.position name = .ok (text name) := headOfName_of_isPlainHead hname _
  refine ⟨text name, fun us info hus => ?_, readForms_name ht hhead start stop found rest⟩
  rw [withHead, bare, erased, stripped_call, stripped_call]
  exact congrArg (call name · {}) hus

/-- A call of another module's function. -/
theorem reads_remote {head : Value} {args : List Value} {info : Info} {module function : String}
    (hremote : head.remote? = some (module, function)) (hname : isRemoteHead module function = true)
    (h : ∀ a ∈ args, ∀ start head read, a.Reads file (.form start head read :: frames)) :
    (apply head args info).Reads file frames := by
  refine reads_form [.atom (module ++ "." ++ function)] (by rw [lexemes, hremote]) h ?_
  intro ts hts start stop found rest
  obtain ⟨t, rfl, ht⟩ := List.map_eq_singleton_iff.1 hts
  have hhead := @headOfName_of_isRemoteHead file _ _ hname t.position
  refine ⟨_, fun us info hus => ?_, readForms_name ht hhead start stop found rest⟩
  obtain ⟨i, rfl⟩ := eq_of_remote? hremote
  rw [withHead_of_isNode rfl, bare, erased, stripped_apply, stripped_apply]
  exact congrArg (apply (call "." [atom module, atom function] {}) · {}) hus

/-- A call whose head is a form or a variable. -/
theorem reads_apply {head : Value} {args : List Value} {info : Info} (hremote : head.remote? = none)
    (hnode : head.isNode = true) (hhead : ∀ start, head.Reads file (.head start :: frames))
    (h : ∀ a ∈ args, ∀ start head read, a.Reads file (.form start head read :: frames)) :
    (apply head args info).Reads file frames := by
  refine reads_form head.lexemes (by rw [lexemes, hremote]) h fun ts hts start stop found rest => ?_
  obtain ⟨u, hu, hread⟩ := hhead start ts hts stop found rest
  refine ⟨u, fun us info hus => ?_, hread⟩
  have hnode' : u.isNode = true := by
    rw [← isNode_stripped id u, ← hnode, ← isNode_stripped (fun _ => .direct) head]
    exact congrArg isNode hu
  have hu' : u.stripped id = head.stripped fun _ => .direct := hu
  rw [withHead_of_isNode hnode', bare, erased, stripped_apply, stripped_apply, hu']
  exact congrArg (apply _ · {}) hus

end

/-- Tokens for a legible value are read as one value that shows the same, wherever a value of its kind may stand. -/
theorem reads (file : String) (v : Value) : v.isLegible = true → ∀ frames,
    (v.isNode = true ∨ ∀ start rest, frames ≠ .head start :: rest) → v.Reads file frames := by
  induction v using treeInduction with
  | call name args info ih =>
    intro hlegible frames _
    rw [isLegible, Bool.and_eq_true, areLegible_iff] at hlegible
    exact reads_call hlegible.1 fun a ha _ _ _ => ih a ha (hlegible.2 a ha) _ (.inr (by rintro _ _ ⟨⟩))
  | apply head args info ihHead ih =>
    intro hlegible frames _
    rw [isLegible, Bool.and_eq_true, areLegible_iff] at hlegible
    have hargs : ∀ a ∈ args, ∀ start head read, a.Reads file (.form start head read :: frames) :=
      fun a ha _ _ _ => ih a ha (hlegible.2 a ha) _ (.inr (by rintro _ _ ⟨⟩))
    cases hremote : head.remote? with
    | some remote =>
      obtain ⟨module, function⟩ := remote
      rw [hremote] at hlegible
      exact reads_remote hremote hlegible.1 hargs
    | none =>
      rw [hremote] at hlegible
      obtain ⟨hnode, hhead⟩ := Bool.and_eq_true_iff.1 hlegible.1
      exact reads_apply hremote hnode (fun start => ihHead hhead _ (.inl hnode)) hargs
  | var name c info =>
    intro hlegible frames _
    refine reads_single rfl fun t ht => ⟨.var name .direct t.position.info, rfl, ?_⟩
    rw [step_eq_shift (.inr ⟨name, ht⟩), Frame.shift, ht]
  | atom name =>
    intro _ frames hframes
    exact reads_literal rfl rfl (fun t ht => by rw [Frame.shift, ht]) (hframes.resolve_left Bool.false_ne_true)
  | number n =>
    intro _ frames hframes
    exact reads_literal rfl rfl (fun t ht => by rw [Frame.shift, ht]) (hframes.resolve_left Bool.false_ne_true)
  | text s =>
    intro _ frames hframes
    exact reads_literal rfl rfl (fun t ht => by rw [Frame.shift, ht]) (hframes.resolve_left Bool.false_ne_true)
  | list items ih =>
    intro hlegible frames hframes
    rw [isLegible, areLegible_iff] at hlegible
    exact reads_list (hframes.resolve_left Bool.false_ne_true) fun v hv _ _ =>
      ih v hv (hlegible v hv) _ (.inr (by rintro _ _ ⟨⟩))
  | tuple items ih =>
    intro hlegible frames hframes
    rw [isLegible, Bool.and_eq_true, beq_iff_eq, areLegible_iff] at hlegible
    obtain ⟨left, right, rfl⟩ := List.length_eq_two.1 hlegible.1
    exact reads_pair (hframes.resolve_left Bool.false_ne_true) fun v hv _ _ =>
      ih v hv (hlegible.2 v hv) _ (.inr (by rintro _ _ ⟨⟩))
  | _ =>
    intro hlegible
    cases hlegible

end Value

/-! ## There and back -/

theorem Value.write_of_isWritable {t : Value} (h : t.isWritable = true) : t.write = .ok (t.render false) := by
  rw [write, checkWritable, if_pos h]
  rfl

theorem Value.write_of_not_isWritable {t : Value} (h : t.isWritable = false) :
    t.write = .error (.usage (.digitLimit none)) := by
  rw [write, checkWritable, h]
  rfl

/-- The text of a legible value is read as one value that shows the same. -/
theorem readSource_render (file : String) {t : Value} (hlegible : t.isLegible = true) (hshort : t.isWritable = true) :
    ∃ u : Value, readSource file (t.render false) = .ok [u] ∧ u.bare = t.erased := by
  obtain ⟨ts, stop, hts, hscan⟩ := (Value.spells_render file t hlegible hshort [] rfl).scan
  obtain ⟨u, hu, hread⟩ := Value.reads file t hlegible [] (.inr (by rintro _ _ ⟨⟩)) ts hts stop [] []
  refine ⟨u, ?_, hu⟩
  rw [List.append_nil] at hread
  rw [readSource, hscan]
  exact hread

/-- A legible value whose integers are not too long is written as a text that is read as one value: the same one, but
for annotations and with all variables as if they were written at their place of use. A value with an integer that is
too long is not written. -/
theorem readSource_write (file : String) (t : Value) (hlegible : t.isLegible = true) :
    (t.isWritable = true → ∃ text u, t.write = .ok text ∧ readSource file text = .ok [u] ∧ u.bare = t.erased) ∧
      (t.isWritable = false → t.write = .error (.usage (.digitLimit none))) := by
  refine ⟨fun hshort => ?_, Value.write_of_not_isWritable⟩
  obtain ⟨u, hread, hu⟩ := readSource_render file hlegible hshort
  exact ⟨t.render false, u, Value.write_of_isWritable hshort, hread, hu⟩

/-- A call of another module's function on a variable from a quote, a list and a pair of calls, one of them with a
variable for its head. -/
def routeCode : Value :=
  .apply (.call "." [.atom "Net.Http", .atom "get!"] {})
    [.var "url" (.quotedIn "Lib") (Info.markEscaped {}), .list [.int (-12), .text "a\"b\\c ;>\n"],
      .pair (.call "." [.int 0] {}) (.apply (.var "f" .direct {}) [] {})] {}

theorem readSource_write_route :
    routeCode.isLegible = true ∧ routeCode.isWritable = true ∧
      ∃ text u, routeCode.write = .ok text ∧ readSource "" text = .ok [u] ∧ u.bare = routeCode.erased := by
  have hlegible : routeCode.isLegible = true := by decide +kernel
  have hshort : routeCode.isWritable = true := by decide +kernel
  exact ⟨hlegible, hshort, (readSource_write "" routeCode hlegible).1 hshort⟩

/-- An integer of one digit more than are allowed is not written. -/
theorem write_long_integer :
    (Value.int (Double.tenTo 4300)).isLegible = true ∧
      (Value.int (Double.tenTo 4300)).write = .error (.usage (.digitLimit none)) := by
  refine ⟨rfl, Value.write_of_not_isWritable ?_⟩
  rw [Value.int, Value.isWritable, Number.isWritable, Int.natAbs_natCast, Number.writeBound, Number.maxDigits]
  exact decide_eq_false (Nat.lt_irrefl _)

end MacroLang
