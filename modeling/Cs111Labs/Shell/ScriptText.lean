import Cs111Labs.Shell.AndOrLists

/-!
# Texts with subshells

The grammar of the README for one complete command, as the cells that
`make_command_stream` leaves for it.  A newline is an `ENDCMD_TOKEN` there, also
inside parentheses.
-/

namespace Cs111Labs.Shell

def Redirections.tokens (r : Redirections) : List Token :=
  (r.input.elim [] fun file => [⟨.input, none⟩, ⟨.word, some file⟩]) ++
    r.output.elim [] fun file => [⟨.output, none⟩, ⟨.word, some file⟩]

/-- What stands between two and-ors. -/
inductive Joint where
  | semicolon
  | newline
  deriving DecidableEq, Repr

def Joint.token : Joint → Token
  | semicolon => ⟨.semicolon, none⟩
  | newline => ⟨.endCmd, none⟩

/-- The newline of a script after the pass over its tokens -/
example : settle ⟨.halfEndCmd, none⟩ = Joint.newline.token := rfl

inductive Level where
  | command
  | pipeline
  | andOr
  | list
  | complete
  deriving DecidableEq, Repr

inductive Text : Level → Type where
  | simple (s : SimpleText) : Text .command
  | subshell (body : Text .complete) (redirections : Redirections) : Text .command
  | command (c : Text .command) : Text .pipeline
  | pipe (left : Text .pipeline) (right : Text .command) : Text .pipeline
  | pipeline (p : Text .pipeline) : Text .andOr
  | connect (left : Text .andOr) (connective : Connective) (right : Text .pipeline) :
      Text .andOr
  | andOr (a : Text .andOr) : Text .list
  | sequence (left : Text .list) (joint : Joint) (right : Text .andOr) : Text .list
  /-- A semicolon may end a complete command. -/
  | complete (l : Text .list) (semicolon : Bool) : Text .complete

namespace Text

variable {level : Level}

def tokens : {level : Level} → Text level → List Token
  | _, simple s => s.tokens
  | _, subshell body redirections =>
      ⟨.lbkt, none⟩ :: body.tokens ++ ⟨.rbkt, none⟩ :: redirections.tokens
  | _, command c => c.tokens
  | _, pipe left right => left.tokens ++ ⟨.pipeline, none⟩ :: right.tokens
  | _, pipeline p => p.tokens
  | _, connect left connective right =>
      left.tokens ++ ⟨connective.token, none⟩ :: right.tokens
  | _, andOr a => a.tokens
  | _, sequence left joint right => left.tokens ++ joint.token :: right.tokens
  | _, complete l semicolon =>
      l.tokens ++ if semicolon then [⟨.semicolon, none⟩] else []

/-- The tree of a text, in which a newline is read as a semicolon. -/
def tree : {level : Level} → Text level → Command
  | _, simple s => s.command
  | _, subshell body redirections => .subshell redirections body.tree
  | _, command c => c.tree
  | _, pipe left right => .binary .pipeCommand {} left.tree right.tree
  | _, pipeline p => p.tree
  | _, connect left connective right =>
      .binary connective.operator {} left.tree right.tree
  | _, andOr a => a.tree
  | _, sequence left _ right => .binary .sequenceCommand {} left.tree right.tree
  | _, complete l _ => l.tree

/-- All and-ors are on one line, also those inside parentheses. -/
def OneLine : {level : Level} → Text level → Prop
  | _, simple _ => True
  | _, subshell body _ => body.OneLine
  | _, command c => c.OneLine
  | _, pipe left right => left.OneLine ∧ right.OneLine
  | _, pipeline p => p.OneLine
  | _, connect left _ right => left.OneLine ∧ right.OneLine
  | _, andOr a => a.OneLine
  | _, sequence left joint right =>
      joint = .semicolon ∧ left.OneLine ∧ right.OneLine
  | _, complete l _ => l.OneLine

/-- `(a;b)|c` -/
example : tree (.pipe (.command (.subshell (.complete (.sequence
        (.andOr (.pipeline (.command (.simple ⟨[97], []⟩)))) .semicolon
        (.pipeline (.command (.simple ⟨[98], []⟩)))) false) {}))
      (.simple ⟨[99], []⟩)) =
    .binary .pipeCommand {} (.subshell {} (.binary .sequenceCommand {}
      (.simple {} [[97]]) (.simple {} [[98]]))) (.simple {} [[99]]) := rfl

/-! ## The cells of a text -/

theorem tokens_ne_nil (t : Text level) : t.tokens ≠ [] := by
  induction t with
  | simple s => simp [tokens, SimpleText.tokens]
  | subshell body redirections _ => simp [tokens]
  | command _ ih | pipeline _ ih | andOr _ ih => exact ih
  | pipe _ _ hleft _ | connect _ _ _ hleft _ | sequence _ _ _ hleft _ =>
      simp [tokens]
  | complete l semicolon ih => simp [tokens, ih]

end Text

theorem running_redirections (r : Redirections) : Running r.tokens := by
  obtain ⟨input, output⟩ := r
  cases input <;> cases output <;> simp [Redirections.tokens, Running]

namespace Text

variable {level : Level}

/-- No cell is unset. -/
theorem written (t : Text level) : Written t.tokens := by
  have hrunning : ∀ {cells : List Token}, Running cells → Written cells :=
    fun h cell hcell => (h cell hcell).2
  induction t with
  | simple s => exact hrunning (running_simple s)
  | subshell body redirections ih =>
      simp only [Written, tokens, List.cons_append, List.forall_mem_cons,
        List.forall_mem_append]
      exact ⟨by simp, ih, by simp, hrunning (running_redirections redirections)⟩
  | command _ ih | pipeline _ ih | andOr _ ih => exact ih
  | pipe left right hleft hright =>
      exact List.forall_mem_append.mpr
        ⟨hleft, List.forall_mem_cons.mpr ⟨by simp, hright⟩⟩
  | connect left connective right hleft hright =>
      refine List.forall_mem_append.mpr
        ⟨hleft, List.forall_mem_cons.mpr ⟨?_, hright⟩⟩
      cases connective <;> simp [Connective.token]
  | sequence left joint right hleft hright =>
      refine List.forall_mem_append.mpr
        ⟨hleft, List.forall_mem_cons.mpr ⟨?_, hright⟩⟩
      cases joint <;> simp [Joint.token]
  | complete l semicolon ih =>
      refine List.forall_mem_append.mpr ⟨ih, ?_⟩
      cases semicolon <;> simp

/-- The only cells that end a command are newlines. -/
theorem oneLine_iff (t : Text level) :
    t.OneLine ↔ ∀ cell ∈ t.tokens, cell.token ≠ .endCmd := by
  have hrunning : ∀ {cells : List Token}, Running cells →
      ∀ cell ∈ cells, cell.token ≠ .endCmd := fun h cell hcell => (h cell hcell).1
  induction t with
  | simple s => exact iff_of_true trivial (hrunning (running_simple s))
  | subshell body redirections ih =>
      simp only [OneLine, ih, tokens, List.cons_append, List.forall_mem_cons,
        List.forall_mem_append]
      have hlast := hrunning (running_redirections redirections)
      exact ⟨fun h => ⟨by simp, h, by simp, hlast⟩, fun h => h.2.1⟩
  | command _ ih | pipeline _ ih | andOr _ ih => exact ih
  | pipe left right hleft hright =>
      simp only [OneLine, hleft, hright, tokens, List.forall_mem_append,
        List.forall_mem_cons]
      simp
  | connect left connective right hleft hright =>
      simp only [OneLine, hleft, hright, tokens, List.forall_mem_append,
        List.forall_mem_cons]
      cases connective <;> simp [Connective.token]
  | sequence left joint right hleft hright =>
      simp only [OneLine, hleft, hright, tokens, List.forall_mem_append,
        List.forall_mem_cons]
      cases joint <;> simp [Joint.token]
  | complete l semicolon ih =>
      simp only [OneLine, ih, tokens, List.forall_mem_append]
      cases semicolon <;> simp

/-! ## Nothing in a text is unreadable -/

/-- The last cell, after which a redirection stands if there is one. -/
def last : {level : Level} → Text level → TokenType
  | _, simple _ => .word
  | _, subshell _ redirections => if redirections.tokens = [] then .rbkt else .word
  | _, command c => c.last
  | _, pipe _ right => right.last
  | _, pipeline p => p.last
  | _, connect _ _ right => right.last
  | _, andOr a => a.last
  | _, sequence _ _ right => right.last
  | _, complete l semicolon => if semicolon then .semicolon else l.last

/-- There is a subshell in the text. -/
def opens : {level : Level} → Text level → Bool
  | _, simple _ => false
  | _, subshell _ _ => true
  | _, command c => c.opens
  | _, pipe left right => left.opens || right.opens
  | _, pipeline p => p.opens
  | _, connect left _ right => left.opens || right.opens
  | _, andOr a => a.opens
  | _, sequence left _ right => left.opens || right.opens
  | _, complete l _ => l.opens

end Text

theorem readableFrom_simple (s : SimpleText) (opened : Bool) (previous : TokenType)
    (rest : List Token) :
    readableFrom opened previous (s.tokens ++ rest) =
      readableFrom opened .word rest := by
  have hparts : ∀ parts : List Part,
      readableFrom opened .word (parts.flatMap Part.tokens ++ rest) =
        readableFrom opened .word rest := by
    intro parts
    induction parts with
    | nil => rfl
    | cons part parts ih =>
        rw [List.flatMap_cons, List.append_assoc, ← ih]
        cases part <;>
          simp [Part.tokens, readableFrom, readableFrom_of_plain,
            TokenType.isRedirection]
  rw [SimpleText.tokens, List.cons_append,
    readableFrom_of_plain (by simp [TokenType.isRedirection])]
  simpa using hparts s.parts

theorem readableFrom_redirections (r : Redirections) (rest : List Token) :
    readableFrom true .rbkt (r.tokens ++ rest) =
      readableFrom true (if r.tokens = [] then .rbkt else .word) rest := by
  obtain ⟨input, output⟩ := r
  cases input <;> cases output <;>
    simp [Redirections.tokens, readableFrom, TokenType.isRedirection]

/-- Every operand is a word, and a redirection after `)` has its subshell. -/
theorem Text.readableFrom_tokens {level : Level} (t : Text level) (opened : Bool)
    (previous : TokenType) (rest : List Token) :
    readableFrom opened previous (t.tokens ++ rest) =
      readableFrom (opened || t.opens) t.last rest := by
  induction t generalizing opened previous rest with
  | simple s => simpa [tokens, opens, last] using
      readableFrom_simple s opened previous rest
  | subshell body redirections ih =>
      simp only [tokens, opens, last, List.cons_append, List.append_assoc]
      rw [readableFrom_of_plain (by simp [TokenType.isRedirection]), ih,
        readableFrom_of_plain (by simp [TokenType.isRedirection])]
      simpa using readableFrom_redirections redirections rest
  | command _ ih | pipeline _ ih | andOr _ ih => exact ih opened previous rest
  | pipe left right hleft hright =>
      simp only [tokens, opens, last, List.cons_append, List.append_assoc]
      rw [hleft, readableFrom_of_plain (by simp [TokenType.isRedirection]), hright]
      simp [Bool.or_assoc]
  | connect left connective right hleft hright =>
      have hplain : connective.token.isRedirection = false ∧
          connective.token ≠ .word ∧ connective.token ≠ .lbkt := by
        cases connective <;> simp [Connective.token, TokenType.isRedirection]
      simp only [tokens, opens, last, List.cons_append, List.append_assoc]
      rw [hleft, readableFrom_of_plain hplain.1, hright]
      simp [hplain.2, Bool.or_assoc]
  | sequence left joint right hleft hright =>
      have hplain : joint.token.token.isRedirection = false ∧
          joint.token.token ≠ .word ∧ joint.token.token ≠ .lbkt := by
        cases joint <;> simp [Joint.token, TokenType.isRedirection]
      simp only [tokens, opens, last, List.cons_append, List.append_assoc]
      rw [hleft, readableFrom_of_plain hplain.1, hright]
      simp [hplain.2, Bool.or_assoc]
  | complete l semicolon ih =>
      simp only [tokens, opens, last, List.append_assoc]
      rw [ih]
      cases semicolon with
      | false => rfl
      | true =>
          rw [if_pos rfl, List.singleton_append,
            readableFrom_of_plain (by simp [TokenType.isRedirection])]
          simp

/-- The builder gets through the cells of a text. -/
theorem Text.buildTokens_isSome {level : Level} (t : Text level)
    (content : Option CString) :
    ∃ b, buildTokens .null (t.tokens ++ [Token.mk .endCmd content]) startBuilder =
      some b := by
  rw [← Option.isSome_iff_exists,
    (Built.tokens true _ Built.start rfl .null).1, t.readableFrom_tokens,
    readableFrom_of_plain (by simp [TokenType.isRedirection])]
  rfl

end Cs111Labs.Shell
