import Incremental.Proofs.Executions
import Incremental.Proofs.Knowing
import Incremental.Proofs.Moves

/-!
# Values that were not cut short

What an evaluation comes to in which a read was refused depends on what it was nested in. As long
as no such evaluation keeps a value, whatever is kept is what its query yields, and everything
below it is known with it.
-/

namespace Incremental

variable {Q K V W : Type}

namespace Event

/-- An evaluation for the row `key` was begun. -/
def starts (key : Handle) : Event Q K → Bool
  | started _ _ other => decide (other = key)
  | _ => false

def clears : Event Q K → Bool
  | cleared _ => true
  | _ => false

/-- Since computed values were last dropped, none was kept by an evaluation in which a read was
refused. The latest event comes first. -/
def uncut : List (Event Q K) → Bool
  | [] | cleared _ :: _ => true
  | computed key :: events =>
    refusals events == refusals (events.dropWhile (!·.starts key)) && uncut events
  | _ :: events => uncut events

variable {event : Event Q K} {events : List (Event Q K)} {key : Handle}

theorem starts_eq_false (h : event.started? = none) (key : Handle) : event.starts key = false := by
  cases event with
  | started => cases h
  | _ => rfl

theorem clears_eq_false (h : ¬ event.Alters) : event.clears = false := by
  cases event with
  | cleared count => exact absurd trivial h
  | _ => rfl

theorem uncut_tail (h : uncut (event :: events)) (hevent : event.clears = false) :
    uncut events := by
  cases event with
  | computed key => exact (Bool.and_eq_true_iff.mp h).2
  | cleared count => cases hevent
  | _ => exact h

theorem refusals_of_uncut (h : uncut (computed key :: events)) :
    refusals events = refusals (events.dropWhile (!·.starts key)) :=
  eq_of_beq (Bool.and_eq_true_iff.mp h).1

end Event

namespace Database

/-- Since `db` no evaluation was begun for any of `keys`, and nothing was cleared. -/
def StartsNone (keys : List Handle) (db db' : Database Q K V W) : Prop :=
  ∃ new, db'.events = new ++ db.events ∧
    ∀ event ∈ new, event.clears = false ∧ ∀ key ∈ keys, event.starts key = false

variable {db db₁ db₂ db' : Database Q K V W} {key : Handle} {fuel : Nat} {keys keys' : List Handle}

namespace StartsNone

theorem of_eq (h : db'.events = db.events) : StartsNone keys db db' := ⟨[], h, by simp⟩

theorem trans (h : StartsNone keys db db₁) (h' : StartsNone keys db₁ db₂) :
    StartsNone keys db db₂ := by
  obtain ⟨new, hnew, hstarts⟩ := h
  obtain ⟨new', hnew', hstarts'⟩ := h'
  refine ⟨new' ++ new, by rw [hnew', hnew, List.append_assoc], fun event hevent ↦ ?_⟩
  rcases List.mem_append.mp hevent with hevent | hevent
  · exact hstarts' event hevent
  · exact hstarts event hevent

theorem mono (h : StartsNone keys db db') (hkeys : ∀ key ∈ keys', key ∈ keys) :
    StartsNone keys' db db' := by
  obtain ⟨new, hnew, hstarts⟩ := h
  exact ⟨new, hnew, fun event hevent ↦
    (hstarts event hevent).imp_right fun hnone key hkey ↦ hnone key (hkeys key hkey)⟩

theorem cons {event : Event Q K} (h : db'.events = event :: db.events)
    (hclears : event.clears = false) (hevent : ∀ key ∈ keys, event.starts key = false) :
    StartsNone keys db db' :=
  ⟨[event], h, by simpa using ⟨hclears, hevent⟩⟩

theorem of_begun (h : db.Unaltered db') (hbegun : db'.begun = db.begun) :
    StartsNone keys db db' := by
  obtain ⟨new, hnew, hunaltered⟩ := h
  refine ⟨new, hnew, fun event hevent ↦ ⟨Event.clears_eq_false (hunaltered event hevent),
    fun key _ ↦ Event.starts_eq_false ?_ key⟩⟩
  simp only [begun, hnew, List.reverse_append, List.filterMap_append, List.append_right_eq_self,
    List.filterMap_eq_nil_iff, List.mem_reverse] at hbegun
  exact hbegun event hevent

theorem uncut (h : StartsNone keys db db') (huncut : Event.uncut db'.events) :
    Event.uncut db.events := by
  obtain ⟨new, hnew, hstarts⟩ := h
  rw [hnew] at huncut
  clear hnew
  induction new with
  | nil => exact huncut
  | cons event new ih =>
      obtain ⟨⟨hclears, _⟩, hrest⟩ := List.forall_mem_cons.mp hstarts
      exact ih (Event.uncut_tail huncut hclears) hrest

theorem leave {stack : CallStack} {frame : Frame}
    (h : db.stack = ⟨frame :: stack.frames, frame.key :: stack.active⟩) (o : Outcome V) :
    StartsNone keys db (Database.leave frame.key stack.depth (o, db)).2 := by
  cases o with
  | panic message =>
      rw [leave_panic h]
      exact .cons rfl rfl fun _ _ ↦ rfl
  | failure f =>
      rw [leave_failure h]
      exact .of_eq rfl
  | value v =>
      rw [leave_value h]
      exact .cons rfl rfl fun _ _ ↦ rfl

end StartsNone

variable [DecidableEq Q] [BEq K] {P : Program Q K V W} {q : Q} {k : K} {o : Outcome V}

theorem StartsNone.read {r : Option (V × Revision)} (hkey : db.intern q k = (key, db₁))
    (hretrieve : (db₁.recordRead key).retrieve fuel key = some (r, db₂)) :
    StartsNone keys db db₂ := by
  obtain rfl := eq_of_intern hkey
  exact (.of_begun (retrieve_looks hretrieve).1 (retrieve_begun hretrieve) :
    StartsNone keys (Database.recordRead _ key) db₂)

/-- No evaluation is begun for what is under evaluation. -/
theorem startsNone_course : Course P (fun _ _ db _ db' ↦ StartsNone db.stack.active db db')
    (fun _ db _ db' ↦ StartsNone db.stack.active db db') where
  refused := by
    intro fuel q k db key db₁ hkey _ _
    obtain rfl := eq_of_intern hkey
    exact .cons rfl rfl fun _ _ ↦ rfl
  hit := by
    intro fuel n q k db key db₁ v c db₂ hkey _ hretrieve _
    have hhit : StartsNone db.stack.active db₂ ((db₂.note (.hit q k)).observe c) :=
      .cons rfl rfl fun _ _ ↦ rfl
    exact (StartsNone.read hkey hretrieve).trans hhit
  tooDeep := by
    intro fuel n q k db key db₁ db₂ limit hkey _ hretrieve _ _
    exact (StartsNone.read hkey hretrieve).trans (.cons rfl rfl fun _ _ ↦ rfl)
  computed := by
    intro fuel n q k db key db₁ db₂ o db₃ hkey hactive hretrieve _ hrun _ hruns
    obtain ⟨frame, rfl, hstack⟩ := (run_grows hrun).of_push
    have hother : ∀ other ∈ db.stack.active, other ≠ frame.key := by
      rintro other hother rfl
      exact not_mem_active hkey hactive hother
    have henter : StartsNone db.stack.active db₂ ((db₂.note (.miss q k)).enter q k frame.key) := by
      have hmiss : StartsNone db.stack.active db₂ (db₂.note (.miss q k)) :=
        .cons rfl rfl fun _ _ ↦ rfl
      exact hmiss.trans (.cons rfl rfl fun other hmem ↦
        decide_eq_false (hother other hmem).symm)
    refine (((StartsNone.read hkey hretrieve).trans henter).trans (hruns.mono fun other hmem ↦ ?_)
      ).trans (.leave hstack o)
    have hsame : db₂.stack.active = db.stack.active := (retrieve_grows hkey hretrieve).active_eq
    exact List.mem_cons_of_mem _ (hsame.symm ▸ hmem)
  done := fun _ _ ↦ .of_eq rfl
  read := by
    intro fuel q k next db a db₁ o db₂ hread _ hstarts hruns
    rw [(query_grows hread).active_eq] at hruns
    exact hstarts.trans hruns
  revision := fun _ _ _ _ h ↦ h
  outside := fun _ _ _ _ _ h ↦ h

theorem query_startsNone (hquery : query P fuel q k db = some (o, db')) :
    StartsNone db.stack.active db db' :=
  startsNone_course.query hquery

theorem run_startsNone {b : Body Q K V W V} (hrun : b.run (query P fuel) db = some (o, db')) :
    StartsNone db.stack.active db db' :=
  startsNone_course.run hrun

omit [DecidableEq Q] [BEq K] in
/-- With a value, an evaluation that was not cut short was refused no read; without one it leaves
the store as it was. -/
theorem leave_uncut {stack : CallStack} {frame : Frame}
    (h : db'.stack = ⟨frame :: stack.frames, frame.key :: stack.active⟩)
    (hstarts : StartsNone (frame.key :: keys) (db.enter q k frame.key) db') (o : Outcome V)
    (huncut : Event.uncut (leave frame.key stack.depth (o, db')).2.events) :
    db'.refusals = (db.enter q k frame.key).refusals ∨
      (leave frame.key stack.depth (o, db')).2.store = db'.store ∧
      (leave frame.key stack.depth (o, db')).2.revision = db'.revision ∧
      Event.uncut db'.events := by
  cases o with
  | panic message =>
      rw [leave_panic h] at huncut ⊢
      exact .inr ⟨rfl, rfl, Event.uncut_tail huncut rfl⟩
  | failure f =>
      rw [leave_failure h] at huncut ⊢
      exact .inr ⟨rfl, rfl, huncut⟩
  | value v =>
      rw [leave_value h] at huncut
      obtain ⟨new, hnew, hnone⟩ := hstarts
      have hbegin : db'.events.dropWhile (!·.starts frame.key) =
          (db.enter q k frame.key).events := by
        rw [hnew, List.dropWhile_append_of_pos fun event hevent ↦ ?_]
        · simp [enter, note, Event.starts]
        · simp [(hnone event hevent).2 frame.key List.mem_cons_self]
      exact .inl ((Event.refusals_of_uncut huncut).trans (congrArg Event.refusals hbegin))

/-- While no value is kept by an evaluation in which a read was refused, everything that is kept is
what it would be without a limit and with nothing else under evaluation. -/
theorem uncut_course [LawfulBEq K] {R : Q × K → Recipe Q K V} (hP : P.Obeys R) : Course P
    (fun _ _ db _ db' ↦ Poised R db → db.Grounded R → Event.uncut db'.events →
      Poised R db' ∧ db'.Grounded R)
    (fun _ db _ db' ↦ Poised R db → db.Grounded R → Event.uncut db'.events →
      Poised R db' ∧ db'.Grounded R) where
  refused := by
    intro fuel q k db key db₁ hkey _ hquery h hgrounded _
    have hlearns : Learns R (fun _ ↦ False) db (db₁.note (.refused (db₁.circle P key))) :=
      (Learns.intern h hkey).trans (.of_eq rfl rfl)
    exact ⟨(h.record hkey).1.of_eq (h.sound.query hquery).1 rfl rfl, hlearns.grounded hgrounded⟩
  hit := by
    intro fuel n q k db key db₁ v c db₂ hkey _ hretrieve hquery h hgrounded _
    have hlearns : Learns R (fun _ ↦ False) db ((db₂.note (.hit q k)).observe c) :=
      (Learns.read h hkey hretrieve).trans (.of_eq rfl rfl)
    exact ⟨((h.record hkey).1.retrieve hretrieve).1.of_eq (h.sound.query hquery).1 rfl rfl,
      hlearns.grounded hgrounded⟩
  tooDeep := by
    intro fuel n q k db key db₁ db₂ limit hkey _ hretrieve _ hquery h hgrounded _
    have hlearns : Learns R (fun _ ↦ False) db (db₂.note (.miss q k)) :=
      (Learns.read h hkey hretrieve).trans (.of_eq rfl rfl)
    exact ⟨((h.record hkey).1.retrieve hretrieve).1.of_eq (h.sound.query hquery).1 rfl rfl,
      hlearns.grounded hgrounded⟩
  computed := by
    intro fuel n q k db key db₁ db₂ o db₃ hkey _ hretrieve _ hrun hquery hruns h hgrounded huncut
    obtain ⟨henter, _, _⟩ := h.enter hkey hretrieve
    obtain ⟨_, _, _, frame, rfl, hstack⟩ := h.sound.ran hkey hretrieve hrun
    have hlearns : Learns R (fun _ ↦ False) db _ := .enter h hkey hretrieve
    have hs := (h.sound.query hquery).1
    rcases leave_uncut hstack (run_startsNone hrun) o huncut with
      hsame | ⟨hstore, hrevision, huncut⟩
    · have hrefusals := (refusals_leave hstack o).trans
        (hsame.trans (miss_refusals hkey hretrieve).2)
      obtain ⟨h', _⟩ := h.query hP hquery hrefusals
      exact ⟨h', (query_learns hP h hquery hrefusals).1.grounded hgrounded⟩
    · obtain ⟨h₃, hgrounded₃⟩ := hruns henter (hlearns.grounded hgrounded) huncut
      have hend : Learns R (fun _ ↦ False) db₃ _ := .of_eq hstore hrevision
      exact ⟨h₃.of_eq hs hstore hrevision, hend.grounded hgrounded₃⟩
  done := fun _ _ h hgrounded _ ↦ ⟨h, hgrounded⟩
  read := by
    intro fuel q k next db a db₁ o db₂ hread hrun hreads hruns h hgrounded huncut
    obtain ⟨h₁, hgrounded₁⟩ := hreads h hgrounded ((run_startsNone hrun).uncut huncut)
    exact hruns h₁ hgrounded₁ huncut
  revision := fun _ _ _ _ h ↦ h
  outside := by
    intro change next db o db₁ hruns h hgrounded huncut
    have hchange : Learns R (fun _ ↦ False) db { db with outside := change db.outside } :=
      .of_eq rfl rfl
    exact hruns (h.of_eq (h.sound.of_eq rfl rfl rfl) rfl rfl) (hchange.grounded hgrounded) huncut

theorem query_uncut [LawfulBEq K] {R : Q × K → Recipe Q K V} (hP : P.Obeys R)
    (hquery : query P fuel q k db = some (o, db')) (h : Poised R db) (hgrounded : db.Grounded R)
    (huncut : Event.uncut db'.events) : Poised R db' ∧ db'.Grounded R :=
  (uncut_course hP).query hquery h hgrounded huncut

end Database

end Incremental
