import RagflowMineru.Library.Substitute
import Mathlib.Data.List.Perm.Subperm

/-!
# Formatting prompts

`ComponentBase.string_format` puts the values of variables in the places of
their names in braces, one name after the other.  Its callers take the names
from references of the canvas, which have no braces in them, so the places of
different names never overlap; but each pass searches the text that the passes
before it left behind, with the values already in it.
-/

namespace RagflowMineru.Agent

open RagflowMineru.Library

/-- An entry of `kv`: a name and its value, `none` for `None`. -/
abbrev Binding := List Char × Option (List Char)

/-- What the pattern `r"\{%s\}" % re.escape(n)` matches. -/
def placeholder (b : Binding) : List Char := '{' :: (b.1 ++ ['}'])

/-- `repl`: `str(val) if val is not None else ""`. -/
def repl (b : Binding) : List Char := b.2.getD []

/-- `string_format`: one `re.sub` for each entry, in the order of the entries. -/
def stringFormat (content : List Char) (kv : List Binding) : List Char :=
  kv.foldl (fun content b => substitute placeholder repl [b] content) content

/-- What `string_format` is for: every name in braces of the original content is replaced by its
value, and the values are not looked at. -/
def simultaneous (content : List Char) (kv : List Binding) : List Char :=
  substitute placeholder repl kv content

/-- The dictionaries that `string_format` is called with: the names are distinct and without
braces. -/
structure Bindings where
  entries : List Binding
  nodup : (entries.map Prod.fst).Nodup
  names : ∀ b ∈ entries, '{' ∉ b.1 ∧ '}' ∉ b.1

theorem isTag_placeholder {b : Binding} (hname : '{' ∉ b.1 ∧ '}' ∉ b.1) :
    IsTag '{' '}' (placeholder b) where
  opens := ⟨b.1 ++ ['}'], rfl, by simpa using hname.1⟩
  closes := ⟨'{' :: b.1, rfl, by simpa using hname.2⟩

theorem distinct_placeholder {kv : List Binding} (h : (kv.map Prod.fst).Nodup) :
    Distinct placeholder kv := by
  have hcomp : kv.map placeholder = (kv.map Prod.fst).map fun n => '{' :: (n ++ ['}']) := by
    rw [List.map_map]
    rfl
  rw [Distinct, hcomp]
  apply h.map
  intro n m heq
  exact List.append_cancel_right (List.cons.inj heq).2

/-- The law of `string_format`: in whichever order the entries come, the result is the
simultaneous substitution in the original content. -/
def FormatsSimultaneously (content : List Char) (kv : Bindings) : Prop :=
  ∀ kv', List.Perm kv' kv.entries →
    stringFormat content kv' = simultaneous content kv.entries

/-- Before each pass the text at hand shows the name in braces just as often as the content did,
or the value of the name is the name in braces. -/
def NoNewPlaceholder (content : List Char) (kv : List Binding) : Prop :=
  ∀ pre b post, kv = pre ++ b :: post →
    occurrences (placeholder b) (simultaneous content pre) = occurrences (placeholder b) content ∨
      repl b = placeholder b

/-- With every choice of entries of `kv`, in every order, the result is the simultaneous
substitution exactly when no pass, in whichever order the entries come, meets a name in braces
that the content did not have; and then the law holds. -/
theorem stringFormat_iff (content : List Char) (kv : Bindings) :
    ((∀ kv', kv'.Subperm kv.entries → stringFormat content kv' = simultaneous content kv') ↔
        ∀ kv', List.Perm kv' kv.entries → NoNewPlaceholder content kv') ∧
      ((∀ kv', List.Perm kv' kv.entries → NoNewPlaceholder content kv') →
        FormatsSimultaneously content kv) := by
  have htags : ∀ kv', List.Perm kv' kv.entries → ∀ b ∈ kv', IsTag '{' '}' (placeholder b) :=
    fun kv' hperm b hb => isTag_placeholder (kv.names b (hperm.subset hb))
  have hdistinct : ∀ kv', List.Perm kv' kv.entries → Distinct placeholder kv' := by
    intro kv' hperm
    exact distinct_placeholder ((hperm.map Prod.fst).nodup_iff.mpr kv.nodup)
  have hpasses : ∀ kv', List.Perm kv' kv.entries →
      ((∀ pre, pre <+: kv' → stringFormat content pre = simultaneous content pre) ↔
        NoNewPlaceholder content kv') := by
    intro kv' hperm
    exact substituteEach_eq_iff (htags kv' hperm) (hdistinct kv' hperm) content
  refine ⟨⟨?_, ?_⟩, ?_⟩
  · intro h kv' hperm
    apply (hpasses kv' hperm).mp
    intro pre hpre
    exact h pre (hpre.sublist.subperm.trans hperm.subperm)
  · intro hclean pre hsub
    obtain ⟨pre', hpre, hsub⟩ := hsub
    obtain ⟨rest, hrest⟩ := hsub.exists_perm_append
    have hperm : List.Perm (pre ++ rest) kv.entries :=
      (hpre.symm.append_right rest).trans hrest.symm
    exact (hpasses (pre ++ rest) hperm).mpr (hclean _ hperm) pre (List.prefix_append pre rest)
  · intro hclean kv' hperm
    rw [(hpasses kv' hperm).mpr (hclean kv' hperm) kv' (List.prefix_refl kv')]
    exact substitute_perm (htags kv.entries (List.Perm.refl _))
      (hdistinct kv.entries (List.Perm.refl _)) hperm content

/-- A prompt with two variables, the first of which a user set to the name of the second in
braces. -/
def promptContent : List Char := "\x7bsys.query\x7d (\x7bsys.user_id\x7d)".toList

def promptBindings : Bindings where
  entries := [("sys.query".toList, some "\x7bsys.user_id\x7d".toList),
    ("sys.user_id".toList, some "u1".toList)]
  nodup := by decide
  names := by decide

/-- The value of the first variable is replaced in turn. -/
theorem not_formatsSimultaneously : ¬ ∀ content kv, FormatsSimultaneously content kv := by
  intro h
  have hprompt := h promptContent promptBindings promptBindings.entries (List.Perm.refl _)
  have hresult : stringFormat promptContent promptBindings.entries = "u1 (u1)".toList := by
    decide +kernel
  have hlaw : simultaneous promptContent promptBindings.entries =
      "\x7bsys.user_id\x7d (u1)".toList := by
    decide +kernel
  rw [hresult, hlaw] at hprompt
  exact absurd hprompt (by decide)

end RagflowMineru.Agent
