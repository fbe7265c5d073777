/-
Which modules the filters of `install_modules` let through.

The loop over the dependency symbols ends at the first symbol that either filter
on symbols matches, and a module it runs to the end for is rejected.  So a
symbol to exclude is not seen behind one to include, and without symbols to
include nothing is accepted.
-/
import DracutInstall.Modules.InstallModule

namespace DracutInstall
namespace Modules

open ByteCodec UnixPath

variable {M : Type} {ctx : RunContext} {symbols : List OsString}

/-- The filters on the name and on the path let the module through. -/
structure NamePathAdmitted (ctx : RunContext) (name : Option OsString) (path : OsString) :
    Prop where
  noname : ∀ n, name = some n → isMatch ctx.modFilterNoname n = false
  nopath : isMatch ctx.modFilterNopath path = false
  path : ∀ r, ctx.modFilterPath = some r → r path = true

/-- What the options promise: a filter that excludes matches nothing, and one that
includes matches if it is set. -/
structure Admitted (ctx : RunContext) (name : Option OsString) (path : OsString)
    (symbols : List OsString) : Prop extends NamePathAdmitted ctx name path where
  nosymbol : ∀ symbol ∈ symbols, isMatch ctx.modFilterNosymbol symbol = false
  symbol : ∀ r, ctx.modFilterSymbol = some r → ∃ symbol ∈ symbols, r symbol = true

/-- Some symbol is to be excluded, when none is asked for; and no symbol that is
asked for stands before the first one to be excluded. -/
def SymbolsInOrder (ctx : RunContext) (symbols : List OsString) : Prop :=
  ∀ nosymbol, ctx.modFilterNosymbol = some nosymbol →
    match ctx.modFilterSymbol with
    | none => ∃ symbol ∈ symbols, nosymbol symbol = true
    | some symbol => ∀ before excluded after, symbols = before ++ excluded :: after →
        (∀ s ∈ before, nosymbol s = false) → nosymbol excluded = true →
        ∀ s ∈ before, symbol s = false

/-! ## The loop over the symbols -/

theorem filterSymbols_nosymbol (hsymbol : ctx.modFilterSymbol = none) :
    filterSymbols ctx symbols = false := by
  induction symbols with
  | nil => rfl
  | cons symbol symbols ih =>
      rw [filterSymbols]
      split
      · rfl
      · rw [hsymbol, if_neg (by simp [isMatch]), ih]

theorem filterSymbols_symbol (hnosymbol : ctx.modFilterNosymbol = none) :
    filterSymbols ctx symbols = symbols.any (isMatch ctx.modFilterSymbol) := by
  induction symbols with
  | nil => rfl
  | cons symbol symbols ih =>
      rw [filterSymbols, hnosymbol, if_neg (by simp [isMatch]), List.any_cons, ih]
      cases isMatch ctx.modFilterSymbol symbol <;> rfl

/-- With both filters: a symbol is matched and none before it is excluded, nor it
itself. -/
theorem filterSymbols_eq_true :
    filterSymbols ctx symbols = true ↔
      ∃ before found after, symbols = before ++ found :: after ∧
        isMatch ctx.modFilterSymbol found = true ∧
        ∀ s ∈ before ++ [found], isMatch ctx.modFilterNosymbol s = false := by
  induction symbols with
  | nil =>
      constructor
      · intro h
        cases h
      · rintro ⟨before, found, after, heq, _⟩
        simp at heq
  | cons symbol symbols ih =>
      rw [filterSymbols]
      by_cases hno : isMatch ctx.modFilterNosymbol symbol = true
      · rw [if_pos hno]
        constructor
        · intro h
          cases h
        · rintro ⟨before, found, after, heq, _, hclear⟩
          have hhead : symbol ∈ before ++ [found] := by
            cases before with
            | nil => simpa using (List.cons.inj heq).1
            | cons b before => simp [(List.cons.inj heq).1]
          rw [hclear symbol hhead] at hno
          exact hno
      · have hno : isMatch ctx.modFilterNosymbol symbol = false := by simpa using hno
        rw [if_neg (by simp [hno])]
        by_cases hyes : isMatch ctx.modFilterSymbol symbol = true
        · rw [if_pos hyes]
          refine ⟨fun _ => ⟨[], symbol, symbols, rfl, hyes, ?_⟩, fun _ => rfl⟩
          intro s hs
          rw [List.mem_singleton.mp hs]
          exact hno
        · rw [if_neg hyes, ih]
          constructor
          · rintro ⟨before, found, after, rfl, hfound, hclear⟩
            refine ⟨symbol :: before, found, after, rfl, hfound, fun s hs => ?_⟩
            rcases List.mem_cons.mp hs with rfl | hs
            · exact hno
            · exact hclear s hs
          · rintro ⟨before, found, after, heq, hfound, hclear⟩
            cases before with
            | nil =>
                obtain ⟨rfl, _⟩ := List.cons.inj heq
                exact absurd hfound hyes
            | cons b before =>
                obtain ⟨rfl, rfl⟩ := List.cons.inj heq
                exact ⟨before, found, after, rfl, hfound,
                  fun s hs => hclear s (List.mem_cons_of_mem _ hs)⟩

theorem exists_first {p : OsString → Bool} {s : OsString} (hs : s ∈ symbols) (hp : p s = true) :
    ∃ before first after, symbols = before ++ first :: after ∧ p first = true ∧
      ∀ t ∈ before, p t = false := by
  cases hfind : symbols.find? p with
  | none => exact absurd hp (List.find?_eq_none.mp hfind s hs)
  | some first =>
      obtain ⟨hfirst, before, after, rfl, hbefore⟩ := List.find?_eq_some_iff_append.mp hfind
      exact ⟨before, first, after, rfl, hfirst, fun t ht => by simpa using hbefore t ht⟩

/-- The loop decides what the two options promise exactly where the order of the
symbols does not matter. -/
theorem filterSymbols_law (hset : ctx.modFilterNosymbol ≠ none ∨ ctx.modFilterSymbol ≠ none) :
    (filterSymbols ctx symbols = true ↔
      (∀ s ∈ symbols, isMatch ctx.modFilterNosymbol s = false) ∧
      ∀ r, ctx.modFilterSymbol = some r → ∃ s ∈ symbols, r s = true) ↔
    SymbolsInOrder ctx symbols := by
  cases hno : ctx.modFilterNosymbol with
  | none =>
      obtain ⟨symbol, hsymbol⟩ := Option.ne_none_iff_exists'.mp (hset.resolve_left (absurd hno))
      have hloop := @filterSymbols_symbol ctx symbols hno
      simp [SymbolsInOrder, hno, hsymbol, hloop, isMatch]
  | some nosymbol =>
      cases hsymbol : ctx.modFilterSymbol with
      | none =>
          have hloop := @filterSymbols_nosymbol ctx symbols hsymbol
          simp [SymbolsInOrder, hno, hsymbol, hloop, isMatch]
      | some symbol =>
          have hloop := @filterSymbols_eq_true ctx symbols
          simp only [hno, hsymbol, isMatch] at hloop
          simp only [SymbolsInOrder, hno, hsymbol, isMatch, Option.some.injEq, forall_eq']
          constructor
          · intro hlaw before excluded after heq hbefore hexcluded s hs
            by_contra hne
            have hyes : symbol s = true := by simpa using hne
            obtain ⟨b, a, rfl⟩ := List.append_of_mem hs
            have htrue : filterSymbols ctx symbols = true := by
              refine hloop.mpr ⟨b, s, a ++ excluded :: after, ?_, hyes, fun t ht => ?_⟩
              · rw [heq, List.append_assoc, List.cons_append]
              · refine hbefore t ?_
                rcases List.mem_append.mp ht with ht | ht
                · exact List.mem_append_left _ ht
                · rw [List.mem_singleton.mp ht]
                  exact hs
            have hclear := (hlaw.mp htrue).1 excluded (by simp [heq])
            rw [hexcluded] at hclear
            cases hclear
          · intro horder
            constructor
            · intro htrue
              obtain ⟨before, found, after, heq, hfound, hclear⟩ := hloop.mp htrue
              refine ⟨fun s hs => ?_, found, by simp [heq], hfound⟩
              by_contra hne
              obtain ⟨b, excluded, a, heq', hexcluded, hb⟩ :=
                exists_first (p := nosymbol) hs (by simpa using hne)
              -- the first symbol to be excluded stands behind the one that was found
              have hinit : before ++ [found] <+: b := by
                have h1 : before ++ [found] <+: symbols := ⟨after, by simp [heq]⟩
                have h2 : b ++ [excluded] <+: symbols := ⟨a, by simp [heq']⟩
                have h3 : b <+: symbols := ⟨excluded :: a, heq'.symm⟩
                rcases Nat.lt_or_ge b.length (before ++ [found]).length with hlt | hle
                · have hle : (b ++ [excluded]).length ≤ (before ++ [found]).length := by
                    rw [List.length_append]
                    exact hlt
                  have h4 := List.prefix_of_prefix_length_le h2 h1 hle
                  have hin := hclear excluded (h4.subset (by simp))
                  rw [hexcluded] at hin
                  cases hin
                · exact List.prefix_of_prefix_length_le h1 h3 hle
              have hout := horder b excluded a heq' hb hexcluded found (List.IsPrefix.subset hinit (by simp))
              rw [hfound] at hout
              cases hout
            · rintro ⟨hclear, found, hmem, hfound⟩
              obtain ⟨before, after, rfl⟩ := List.append_of_mem hmem
              refine hloop.mpr ⟨before, found, after, rfl, hfound, fun s hs => hclear s ?_⟩
              rcases List.mem_append.mp hs with hs | hs
              · exact List.mem_append_left _ hs
              · rw [List.mem_singleton.mp hs]
                exact hmem

/-! ## The whole filter -/

section Law

variable {kmod : Kmod M} {module : M} {path : OsString}

theorem filterModule_namePath (h : filterModuleNamePathSymbols ctx kmod module path = true) :
    NamePathAdmitted ctx (kmod.name module) path := by
  rw [filterModuleNamePathSymbols] at h
  split at h
  · cases h
  · rename_i hname
    split at h
    · cases h
    · rename_i hnopath
      split at h
      · cases h
      · rename_i hpath
        refine ⟨fun n hn => ?_, by simpa using hnopath, fun r hr => ?_⟩
        · simpa [hn] using hname
        · simpa [hr] using hpath

/-- Past the filters on the name and the path only the symbols decide. -/
theorem filterModule_symbols (h : NamePathAdmitted ctx (kmod.name module) path)
    (hsit : kmod.dependencySymbols module = some symbols) :
    filterModuleNamePathSymbols ctx kmod module path =
      if ctx.modFilterNosymbol.isNone && ctx.modFilterSymbol.isNone then true
      else filterSymbols ctx symbols := by
  have hname : (kmod.name module).any (isMatch ctx.modFilterNoname) = false := by
    cases hn : kmod.name module with
    | none => rfl
    | some n => exact h.noname n hn
  have hpath : ctx.modFilterPath.any (fun r => !r path) = false := by
    cases hr : ctx.modFilterPath with
    | none => rfl
    | some r => simp [h.path r hr]
  simp only [filterModuleNamePathSymbols, hname, h.nopath, hpath, hsit, Bool.false_eq_true,
    if_false]

/-- The filter keeps the promise of its options if and only if the name or the
path is rejected, or the symbols are in order. -/
theorem filterModule_law (ctx : RunContext) (kmod : Kmod M) (module : M) (path : OsString)
    (symbols : List OsString) (hsit : kmod.dependencySymbols module = some symbols) :
    (filterModuleNamePathSymbols ctx kmod module path = true ↔
      Admitted ctx (kmod.name module) path symbols) ↔
    (NamePathAdmitted ctx (kmod.name module) path → SymbolsInOrder ctx symbols) := by
  by_cases hnp : NamePathAdmitted ctx (kmod.name module) path
  · have hadmitted : Admitted ctx (kmod.name module) path symbols ↔
        (∀ s ∈ symbols, isMatch ctx.modFilterNosymbol s = false) ∧
        ∀ r, ctx.modFilterSymbol = some r → ∃ s ∈ symbols, r s = true :=
      ⟨fun h => ⟨h.nosymbol, h.symbol⟩, fun h => ⟨hnp, h.1, h.2⟩⟩
    rw [filterModule_symbols hnp hsit, hadmitted, forall_prop_of_true hnp]
    by_cases hset : ctx.modFilterNosymbol ≠ none ∨ ctx.modFilterSymbol ≠ none
    · have hboth : (ctx.modFilterNosymbol.isNone && ctx.modFilterSymbol.isNone) = false := by
        rcases hset with hset | hset
        · rw [Option.isNone_eq_false_iff.mpr (Option.isSome_iff_ne_none.mpr hset), Bool.false_and]
        · rw [Option.isNone_eq_false_iff.mpr (Option.isSome_iff_ne_none.mpr hset), Bool.and_false]
      rw [hboth, if_neg Bool.false_ne_true]
      exact filterSymbols_law hset
    · obtain ⟨hno, hsymbol⟩ := not_or.mp hset
      simp only [ne_eq, Decidable.not_not] at hno hsymbol
      simp [hno, hsymbol, isMatch, SymbolsInOrder]
  · constructor
    · exact fun _ h => absurd h hnp
    · intro _
      exact ⟨fun h => absurd (filterModule_namePath h) hnp,
        fun h => absurd h.toNamePathAdmitted hnp⟩

end Law

/-! ## A filter of each kind -/

/-- One module, with the symbols `a` and `b`. -/
def oneModule : Kmod Unit :=
  { name := fun _ => some (ascii "m"), path := fun _ => some (ascii "/m.ko")
    dependencies := fun _ => [], softDependencies := fun _ => none
    dependencySymbols := fun _ => some [ascii "a", ascii "b"]
    moduleNewFromLookup := fun _ => none }

def onlyNosymbol (text : OsString) : RunContext :=
  { modFilterPath := none, modFilterNopath := none, modFilterSymbol := none
    modFilterNosymbol := some fun s => decide (s = text), modFilterNoname := none }

/-- No symbol is to be excluded, and the module is rejected all the same. -/
theorem onlyNosymbol_rejects :
    ¬ (filterModuleNamePathSymbols (onlyNosymbol (ascii "x")) oneModule () (ascii "/m.ko") = true ↔
      Admitted (onlyNosymbol (ascii "x")) (oneModule.name ()) (ascii "/m.ko")
        [ascii "a", ascii "b"]) := by
  intro h
  have hadmitted : Admitted (onlyNosymbol (ascii "x")) (oneModule.name ()) (ascii "/m.ko")
      [ascii "a", ascii "b"] :=
    ⟨⟨fun _ _ => rfl, rfl, fun _ h => nomatch h⟩, by decide, fun _ h => nomatch h⟩
  exact absurd (h.mpr hadmitted) (by decide)

theorem onlyNosymbol_excludes :
    filterModuleNamePathSymbols (onlyNosymbol (ascii "b")) oneModule () (ascii "/m.ko") = true ↔
      Admitted (onlyNosymbol (ascii "b")) (oneModule.name ()) (ascii "/m.ko")
        [ascii "a", ascii "b"] := by
  refine (filterModule_law _ oneModule () _ _ rfl).mpr fun _ nosymbol h => ?_
  obtain rfl := Option.some.inj h
  exact ⟨ascii "b", by decide, by decide⟩

end Modules
end DracutInstall
