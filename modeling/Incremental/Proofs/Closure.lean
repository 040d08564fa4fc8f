import Incremental.Proofs.Acyclicity
import Mathlib.Order.Bounds.Basic

/-!
# What a current value rests on

A value that is known to stand at the current revision rests on values that are known to stand
too, and it changed exactly when the newest of them did, or when its row was last emptied. This
holds between operations and at every point inside a query, whether the value was computed at
this revision or was computed before and has been found to stand since.
-/

namespace Incremental

variable {Q K V W : Type}

namespace Store

variable [DecidableEq Q] [BEq K] {R : Q × K → Recipe Q K V} {now : Revision} {s : Store Q K V}
  {key : Handle} {v : V} {c : Revision} {reads : List Handle}

/-- The revisions that the change of a value with these reads has to account for: that of the last
removal from its row, and those at which the reads have changed. -/
def changes (s : Store Q K V) (key : Handle) (reads : List Handle) : Set Revision :=
  {r | r = s.removedAt key ∨ ∃ d ∈ reads, ∃ m, s.memo? d = some m ∧ r = m.changedAt}

theorem Consistent.isGreatest_changes (hs : Consistent (.of R) now s)
    (hm : s.memo? key = some (.derived v c now reads)) : IsGreatest (s.changes key reads) c := by
  obtain ⟨hremoved, hcw, _⟩ := hs.derived key v c now reads hm
  constructor
  · refine (hs.recorded key v c now reads hm).attained.imp_right ?_
    rintro ⟨d, hd, hchanged⟩
    obtain ⟨m, hm', _, hle⟩ := hs.current_reads hm hd
    exact ⟨d, hd, m, hm', (hchanged m hm' (Nat.le_trans hle hcw)).symm⟩
  · rintro r (rfl | ⟨d, hd, m, hm', rfl⟩)
    · exact hremoved
    · obtain ⟨m', hm'', _, hle⟩ := hs.current_reads hm hd
      cases hm'.symm.trans hm''
      exact hle

end Store

namespace Database

open Store

variable [DecidableEq Q] [BEq K] [EquivBEq K] [BEq V] {R : Q × K → Recipe Q K V}
  {P : Program Q K V W} {db s : Database Q K V W}

/-- After any history of a program of pure bodies that give values only if all their reads do, and
at every point inside a query that is then asked for, what is known to stand rests on what is known
to stand, and changed with the newest of it. -/
theorem current_value_closed (hP : P.Pure R) {configuration : Configuration} {w : W} {fuel : Nat}
    {ops : List (Operation Q K V)} {replies : List (Except String (Reply V))}
    (hops : performAll P fuel ops { configuration, outside := w } = some (replies, db))
    (hs : s = db ∨ ∃ q k, Passes P (.get q k) db s) {key : Handle} {v : V} {c : Revision}
    {reads : List Handle} (hm : s.store.memo? key = some (.derived v c s.revision reads)) :
    (∀ d ∈ reads, ∃ m, s.store.memo? d = some m ∧ m.IsCurrent s.revision) ∧
      IsGreatest (s.store.changes key reads) c := by
  have hdb : Resting (.of R) db :=
    (Resting.initial _ configuration w).performAll hP.steady hops
  have hconsistent := hdb.consistent_within hP.steady hs
  refine ⟨fun d hd ↦ ?_, hconsistent.isGreatest_changes hm⟩
  obtain ⟨m, hm', hcurrent, _⟩ := hconsistent.current_reads hm hd
  exact ⟨m, hm', hcurrent⟩

end Database

/-- A receipt for goods with a net and a gross price. Nothing depends on the motto of the shop. -/
inductive Till
  | price
  | tax
  | motto
  | net
  | gross
  | receipt
  deriving DecidableEq

open Database

namespace Till

def logic : Till → Option (Recipe Till Unit Nat)
  | net => some (.get (price, ()) fun p ↦ .done (.value p))
  | gross => some (.get (net, ()) fun n ↦ .get (tax, ()) fun t ↦ .done (.value (n + t)))
  | receipt => some (.get (gross, ()) fun g ↦ .get (net, ()) fun n ↦ .done (.value (g - n)))
  | _ => none

def program : Program Till Unit Nat Unit := .ofRecipes (fun _ ↦ "") logic

theorem program_pure : program.Pure (recipes (fun _ ↦ "") logic) := by
  refine .of_lawful (Program.ofRecipes_obeys _ _) ?_
  rintro ⟨q, k⟩
  cases q <;> simp [recipes, logic]

/-- The net price is dropped and computed anew for the gross price, then the motto is changed. -/
def history : List (Operation Till Unit Nat) :=
  [.act (.edit (.set price () 5)), .act (.edit (.set tax () 2)),
    .act (.inquire (.query gross ())), .act (.edit (.remove net ())),
    .act (.inquire (.query gross ())), .act (.edit (.set motto () 0))]

/-- While the receipt is computed, the gross price has been found to stand, with all that was read
for it. It changed with the net price, which did when its row was emptied. -/
theorem gross_closed_inside :
    ∃ replies, ∃ db s : Database Till Unit Nat Unit,
      performAll program 8 history { outside := () } = some (replies, db) ∧
      Passes program (.get receipt ()) db s ∧ s.stack.depth = 1 ∧
      ∃ gross net price tax,
        s.store.memo? gross = some (.derived 7 3 s.revision [net, price, tax]) ∧
        s.store.memo? net = some (.derived 5 3 s.revision [price]) ∧
        (∀ d ∈ [net, price, tax], ∃ m, s.store.memo? d = some m ∧ m.IsCurrent s.revision) ∧
        IsGreatest (s.store.changes gross [net, price, tax]) 3 ∧
        IsGreatest (s.store.changes net [price]) 3 := by
  have hrun : (performAll program 8 history { outside := () }).bind (fun p ↦
      let (key, db) := p.2.intern receipt ()
      (retrieve 8 key (db.recordRead key)).bind fun r ↦
        (query program 8 gross () ((r.2.note (.miss receipt ())).enter receipt () key)).map fun a ↦
          (!db.stack.isActive key && r.1.isNone &&
              (r.2.configuration.brokenAt r.2.stack.depth).isNone,
            a.2.stack.depth, a.2.revision, [⟨2, 0⟩, ⟨3, 0⟩].map a.2.store.memo?)) =
      some (true, 1, 4,
        [some (.derived 7 3 4 [⟨3, 0⟩, ⟨0, 0⟩, ⟨1, 0⟩]), some (.derived 5 3 4 [⟨0, 0⟩])]) := by
    decide +kernel
  obtain ⟨⟨replies, db⟩, hops, hrun⟩ := Option.bind_eq_some_iff.mp hrun
  obtain ⟨⟨r, db₂⟩, hretrieve, hrun⟩ := Option.bind_eq_some_iff.mp hrun
  obtain ⟨⟨a, s⟩, hquery, hend⟩ := Option.map_eq_some_iff.mp hrun
  simp only [Prod.mk.injEq, Bool.and_eq_true, Bool.not_eq_true', Option.isNone_iff_eq_none,
    List.map_cons, List.map_nil, List.cons.injEq, and_true] at hend
  obtain ⟨⟨⟨hactive, rfl⟩, hbroken⟩, hdepth, hrevision, hgross, hnet⟩ := hend
  rw [← hrevision] at hgross hnet
  have hpasses : Passes program (.get receipt ()) db s :=
    .inside rfl hactive hretrieve hbroken (.later hquery .here)
  obtain ⟨hreads, hgreatest⟩ :=
    current_value_closed program_pure hops (.inr ⟨receipt, (), hpasses⟩) hgross
  obtain ⟨_, hgreatest'⟩ :=
    current_value_closed program_pure hops (.inr ⟨receipt, (), hpasses⟩) hnet
  exact ⟨replies, db, s, hops, hpasses, hdepth, _, _, _, _, hgross, hnet, hreads, hgreatest,
    hgreatest'⟩

end Till

end Incremental
