import MacroLang.Proofs.Tree.Closure
import MacroLang.Source.Reader

/-!
# What is read is up to the standard of its tokens

The reader takes the place of a node from the token that the node starts with. So if the places of all tokens are up to
a standard, then so is what is still open (`Standard.frame`) while tokens are read one by one (`Standard.gives_step`).

Main statement: `Standard.gives_readSource`.
-/

namespace MacroLang

namespace Standard

/-- The one objection of the reader to a node, which names the file at once, may be raised. -/
def Reads (S : Standard) (file : String) : Prop :=
  ∀ size i, S.info i → S.error (.located (.pairSize size) i (some file))

variable (S : Standard)

/-! ## Tokens -/

-- Before there are nodes, no error is one on a node.

theorem gives_wordToken (file : String) (start : Position) (chars : List Char) (stop : Position) :
    S.Gives (fun _ => True) (wordToken file start chars stop) := by
  unfold wordToken
  split
  · dsimp only
    split
    · trivial
    · exact S.unlocated rfl
  · trivial
  · exact S.unlocated rfl

theorem gives_mode_step (file : String) (p : Position) (c : Char) (mode : Mode) :
    S.Gives (fun _ => True) (mode.step file p c) := by
  cases mode with
  | word start chars =>
    rw [Mode.step]
    split
    · exact .bind (S.gives_wordToken file start chars p) fun _ _ => trivial
    · trivial
  | text start chars =>
    rw [Mode.step]
    split
    · trivial
    split
    · trivial
    · trivial
  | tilde start =>
    rw [Mode.step]
    split
    · trivial
    · trivial
  | _ => trivial

theorem gives_mode_finish (file : String) (p : Position) (mode : Mode) :
    S.Gives (fun _ => True) (mode.finish file p) := by
  cases mode with
  | word start chars => exact .bind (S.gives_wordToken file start chars p) fun _ _ => trivial
  | text | escape => exact S.unlocated rfl
  | _ => trivial

theorem gives_scanFrom (file : String) (found : List Token) (mode : Mode) (p : Position) (cs : List Char) :
    S.Gives (fun _ => True) (Tokens.scanFrom file found mode p cs) := by
  induction cs generalizing found mode p with
  | nil => exact .bind (S.gives_mode_finish file p mode) fun _ _ => trivial
  | cons c cs ih => exact .bind (S.gives_mode_step file p c mode) fun _ _ => ih _ _ _

/-! ## Forms -/

/-- The place of the construct and its members so far are up to the standard. -/
def frame : Frame → Prop
  | .operand _ start | .head start => S.info start.info
  | .form start h args => S.info start.info ∧ S.value h ∧ ∀ v ∈ args, S.value v
  | .list start items | .pair start items => S.info start.info ∧ ∀ v ∈ items, S.value v

def progress : Progress → Prop
  | .finished v => S.value v
  | .unfinished frames => ∀ f ∈ frames, S.frame f

variable {S}

theorem progress_complete {frames : List Frame} (hframes : ∀ f ∈ frames, S.frame f) {v : Value} (hv : S.value v) :
    S.progress (Frame.complete v frames) := by
  induction frames generalizing v with
  | nil => exact hv
  | cons f rest ih =>
    rw [List.forall_mem_cons] at hframes
    obtain ⟨hf, hrest⟩ := hframes
    cases f with
    | operand sign start => exact ih hrest (value_call.2 ⟨hf, List.forall_mem_singleton.2 hv⟩)
    | head start => exact List.forall_mem_cons.2 ⟨⟨hf, hv, List.forall_mem_nil _⟩, hrest⟩
    | form start h args =>
      exact List.forall_mem_cons.2 ⟨⟨hf.1, hf.2.1, List.forall_mem_cons.2 ⟨hv, hf.2.2⟩⟩, hrest⟩
    | list start items => exact List.forall_mem_cons.2 ⟨⟨hf.1, List.forall_mem_cons.2 ⟨hv, hf.2⟩⟩, hrest⟩
    | pair start items => exact List.forall_mem_cons.2 ⟨⟨hf.1, List.forall_mem_cons.2 ⟨hv, hf.2⟩⟩, hrest⟩

section

variable (file : String) {t : Token} (ht : S.info t.position.info) {frames : List Frame}
  (hframes : ∀ f ∈ frames, S.frame f)

include ht hframes

theorem gives_shift : S.Gives S.progress (Frame.shift file t frames) := by
  unfold Frame.shift
  split
  case h_1 | h_4 => exact List.forall_mem_cons.2 ⟨ht, hframes⟩
  case h_2 | h_3 => exact List.forall_mem_cons.2 ⟨⟨ht, List.forall_mem_nil _⟩, hframes⟩
  case h_5 => exact progress_complete hframes (value_atom _)
  case h_6 => exact progress_complete hframes (value_text _)
  case h_7 => exact progress_complete hframes (value_number _)
  case h_8 => exact progress_complete hframes (value_var.2 ht)
  all_goals exact S.unlocated rfl

omit hframes in
theorem gives_headOfName (name : String) : S.Gives S.value (headOfName file t.position name) := by
  unfold headOfName
  dsimp only
  split
  · exact value_text name
  split
  · exact S.unlocated rfl
  · exact S.gives_buildRemote ht _ _

theorem gives_shiftHead {start : Position} (hstart : S.info start.info) :
    S.Gives S.progress (Frame.shiftHead file t start frames) := by
  have hopen : ∀ f ∈ .head start :: frames, S.frame f := List.forall_mem_cons.2 ⟨hstart, hframes⟩
  unfold Frame.shiftHead
  split
  · refine .bind (gives_headOfName file ht _) fun h hh => ?_
    exact List.forall_mem_cons.2 ⟨⟨hstart, hh, List.forall_mem_nil _⟩, hframes⟩
  · exact gives_shift file ht hopen
  · exact gives_shift file ht hopen
  · exact gives_shift file ht hopen
  · exact S.unlocated rfl
  · exact S.unlocated rfl

theorem gives_step (hfile : S.Reads file) : S.Gives S.progress (Frame.step file t frames) := by
  unfold Frame.step
  split
  · obtain ⟨hstart, hrest⟩ := List.forall_mem_cons.1 hframes
    exact gives_shiftHead file ht hrest hstart
  · obtain ⟨⟨hstart, hh, hargs⟩, hrest⟩ := List.forall_mem_cons.1 hframes
    exact progress_complete hrest (value_withHead hh (fun v hv => hargs v (List.mem_reverse.1 hv)) hstart)
  · obtain ⟨⟨-, hitems⟩, hrest⟩ := List.forall_mem_cons.1 hframes
    exact progress_complete hrest (value_list.2 fun v hv => hitems v (List.mem_reverse.1 hv))
  · obtain ⟨⟨hstart, hitems⟩, hrest⟩ := List.forall_mem_cons.1 hframes
    split
    · exact progress_complete hrest (value_pair.2 ⟨hitems _ (by simp), hitems _ (by simp)⟩)
    · exact hfile _ _ hstart
  · exact gives_shift file ht hframes

end

theorem gives_readForms {file : String} (hfile : S.Reads file) (stop : Position) {found : List Value}
    (hfound : ∀ v ∈ found, S.value v) {frames : List Frame} (hframes : ∀ f ∈ frames, S.frame f) {ts : List Token}
    (hts : ∀ t ∈ ts, S.info t.position.info) :
    S.Gives (fun vs => ∀ v ∈ vs, S.value v) (readForms file stop found frames ts) := by
  induction ts generalizing found frames with
  | nil =>
    unfold readForms
    split
    · exact fun v hv => hfound v (List.mem_reverse.1 hv)
    · exact S.unlocated rfl
  | cons t ts ih =>
    rw [List.forall_mem_cons] at hts
    refine .bind (gives_step file hts.1 hframes hfile) fun progress hprogress => ?_
    cases progress with
    | finished v => exact ih (List.forall_mem_cons.2 ⟨hprogress, hfound⟩) (List.forall_mem_nil _) hts.2
    | unfinished frames => exact ih hfound hprogress hts.2

end Standard

/-! ## Source texts -/

/-- Where the tokens of a source text start, if it can be scanned. -/
def tokenStarts (file source : String) : List Position :=
  match Tokens.scan file source with
  | .ok ts => ts.tokens.map (·.position)
  | .error _ => []

/-- What a source text is read as is up to every standard that the places of its tokens are up to. -/
theorem Standard.gives_readSource (S : Standard) (file source : String) (hfile : S.Reads file)
    (hstarts : ∀ p ∈ tokenStarts file source, S.info p.info) :
    S.Gives (fun vs => ∀ v ∈ vs, S.value v) (readSource file source) := by
  have hscan := S.gives_scanFrom file [] .between .start source.toList
  refine .bind (.of_raises hscan.raises fun ts hts => hts) fun ts hts => ?_
  refine gives_readForms hfile _ (List.forall_mem_nil _) (List.forall_mem_nil _) fun t ht => hstarts _ ?_
  have hok : Tokens.scan file source = .ok ts := hts
  rw [tokenStarts, hok]
  exact List.mem_map_of_mem ht

end MacroLang
