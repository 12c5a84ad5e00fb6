import Relocation.Proofs.Disk.Directories
import Relocation.Disk.Volume

/-!
# What a call on a volume can do

A call either is refused, and the disk stays as it is, or acts as the disk does. Writes may store
other bytes than they were given, unless the volume is honest.
-/

namespace Relocation

namespace Volume

open Disk

def Refuses (op : Op α) (v : Volume) : Prop :=
  ∃ e v', op v = (.error e, v') ∧ v'.disk = v.disk ∧ v'.hazards = v.hazards

def Yields (op : Op α) (v : Volume) (a : α) (d : Disk) : Prop :=
  ∃ v', op v = (.ok a, v') ∧ v'.disk = d ∧ v'.hazards = v.hazards

/-- No write stores other bytes than it was given. -/
def Honest (v : Volume) : Prop := ∀ past c content, v.hazards past c ≠ .garble content

def Sweeps (v : Volume) : Prop := ∀ past p message, v.hazards past (.removeDir p) ≠ .fail message

/-- A call that fails for reasons outside the disk is followed by such calls only. -/
def Halting (v : Volume) : Prop :=
  ∀ past c message, v.hazards past c = .fail message → ∀ c', ∃ message', v.hazards
    (c :: past) c' = .fail message'

def Stopped (v : Volume) : Prop := ∀ c, ∃ message, v.hazards v.past c = .fail message

/-- The computation fails for reasons outside the disk. -/
def Befallen (op : Op α) (v : Volume) : Prop :=
  ∃ e v', op v = (.error e, v') ∧ v'.disk = v.disk ∧ v'.hazards = v.hazards ∧ (v.Halting → v'.Stopped)

theorem Befallen.refuses {op : Op α} {v : Volume} (befallen : Befallen op v) : Refuses op v := by
  obtain ⟨e, v', failed, disk, hazards, _⟩ := befallen
  exact ⟨e, v', failed, disk, hazards⟩

theorem call_fails (c : Call) (act : Hazard → Disk → Except IoFault (α × Disk)) {v : Volume}
    {message : String} (failed : v.hazards v.past c = .fail message) : Befallen (call c act) v := by
  refine ⟨.other message, { v with past := c :: v.past }, by rw [call, failed], rfl, rfl, ?_⟩
  intro halting c'
  exact halting _ _ _ failed c'

theorem call_cases (c : Call) (act : Hazard → Disk → Except IoFault (α × Disk)) (v : Volume) :
    (Befallen (call c act) v ∧ ∃ message, v.hazards v.past c = .fail message) ∨
    (Refuses (call c act) v ∧ ∃ e, act (v.hazards v.past c) v.disk = .error e) ∨
    ∃ a d, act (v.hazards v.past c) v.disk = .ok (a, d) ∧ Yields (call c act) v a d := by
  have acts : ∀ hazard, (∀ message, hazard ≠ .fail message) → v.hazards v.past c = hazard →
      (∀ a d, act hazard v.disk = .ok (a, d) →
        call c act v = (.ok a, { v with past := c :: v.past, disk := d })) ∧
      ∀ e, act hazard v.disk = .error e →
      call c act v = (.error e, { v with past := c :: v.past }) := by
    intro hazard harmless same
    unfold call
    rw [same]
    cases hazard with
    | fail message => exact (harmless message rfl).elim
    | _ => exact ⟨fun a d result => by simp only [result], fun e result => by simp only [result]⟩
  by_cases befallen : ∃ message, v.hazards v.past c = .fail message
  · obtain ⟨message, failed⟩ := befallen
    exact Or.inl ⟨call_fails c act failed, message, failed⟩
  · have same := acts _ (fun message failed => befallen ⟨message, failed⟩) rfl
    cases result : act (v.hazards v.past c) v.disk with
    | error e => exact Or.inr (Or.inl ⟨⟨e, _, same.2 e result, rfl, rfl⟩, e, rfl⟩)
    | ok pair => exact Or.inr (Or.inr ⟨pair.1, pair.2, rfl, _, same.1 pair.1 pair.2 result, rfl, rfl⟩)

theorem andThen_ok {first : Op α} {v v' : Volume} {a : α} (result : first v = (.ok a, v'))
    (next : α → Op β) : andThen first next v = next a v' := by
  rw [andThen, result]

theorem andThen_error {first : Op α} {v v' : Volume} {e : IoFault} (result : first v = (.error e, v'))
    (next : α → Op β) : andThen first next v = (.error e, v') := by
  rw [andThen, result]

theorem effect_ok {act : Disk → Except IoFault Disk} {d d' : Disk} {a : Unit} :
    effect act d = .ok (a, d') ↔ act d = .ok d' := by
  unfold effect
  cases act d <;> simp [Except.map]

variable {v : Volume} {loc : Location}

section
variable (tree : v.disk.IsTree) (valid : ∀ name ∈ loc, Path.IsName name)
include tree valid

theorem read_cases : Refuses (read (pathOf loc)) v ∨
    ∃ c, v.disk.at? loc = some (.file c) ∧ Yields (read (pathOf loc)) v c v.disk := by
  rcases call_cases (.read (pathOf loc)) (fun _ d => (d.read (pathOf loc)).map (·, d)) v with
    ⟨befallen, _⟩ | ⟨refused, _⟩ | ⟨c, d, acted, yields⟩
  · exact Or.inl befallen.refuses
  · exact Or.inl refused
  · cases result : v.disk.read (pathOf loc) with
    | error e => rw [result] at acted; cases acted
    | ok bytes =>
      rw [result] at acted
      cases acted
      exact Or.inr ⟨_, (read_pathOf tree valid).mp result, yields⟩

theorem write_cases (content : Text.Bytes) : Refuses (write (pathOf loc) content) v ∨
    ∃ c, v.disk.Takes loc ∧ Yields (write (pathOf loc) content) v () (v.disk.put loc (.file c)) ∧
      (v.Honest → c = content) := by
  rcases (show (Befallen (write (pathOf loc) content) v ∧ _) ∨ _ from call_cases _ _ v) with
    ⟨befallen, _⟩ | ⟨refused, _⟩ | ⟨_, d, acted, yields⟩
  · exact Or.inl befallen.refuses
  · exact Or.inl refused
  · refine Or.inr ?_
    cases hazard : v.hazards v.past (.write (pathOf loc)) with
    | garble other =>
      rw [hazard] at acted
      obtain ⟨takes, rfl⟩ := (write_pathOf tree valid).mp (effect_ok.mp acted)
      exact ⟨other, takes, yields, fun honest => (honest _ _ _ hazard).elim⟩
    | _ =>
      rw [hazard] at acted
      obtain ⟨takes, rfl⟩ := (write_pathOf tree valid).mp (effect_ok.mp acted)
      exact ⟨content, takes, yields, fun _ => rfl⟩

/-- The directories on the way down are made, or some of them. -/
theorem createDirs_cases : Refuses (createDirs (pathOf loc)) v ∨
    ∃ outer, outer <+: loc ∧ ¬ v.disk.IsBlocked outer ∧
      Yields (createDirs (pathOf loc)) v () (v.disk.makeDirs outer) := by
  rcases (show (Befallen (createDirs (pathOf loc)) v ∧ _) ∨ _ from call_cases _ _ v) with
    ⟨befallen, _⟩ | ⟨refused, _⟩ | ⟨_, d, acted, yields⟩
  · exact Or.inl befallen.refuses
  · exact Or.inl refused
  · refine Or.inr ?_
    cases hazard : v.hazards v.past (.createDirs (pathOf loc)) with
    | shallow levels =>
      rw [hazard] at acted
      obtain ⟨outer, inside, clear, rfl⟩ := createDirs_partway tree valid levels (effect_ok.mp acted)
      exact ⟨outer, inside, clear, yields⟩
    | _ =>
      rw [hazard] at acted
      obtain ⟨clear, rfl⟩ := (createDirs_pathOf tree valid).mp (effect_ok.mp acted)
      exact ⟨loc, List.prefix_refl _, clear, yields⟩

theorem removeFile_cases : Befallen (removeFile (pathOf loc)) v ∨
    (Refuses (removeFile (pathOf loc)) v ∧ ∀ c, v.disk.at? loc ≠ some (.file c)) ∨
    (∃ c, v.disk.at? loc = some (.file c)) ∧
    Yields (removeFile (pathOf loc)) v () (v.disk.erase loc) := by
  rcases call_cases (.removeFile (pathOf loc)) (fun _ => effect (·.removeFile (pathOf loc))) v with
    ⟨befallen, _⟩ | ⟨refused, e, failed⟩ | ⟨_, d, acted, yields⟩
  · exact Or.inl befallen
  · refine Or.inr (Or.inl ⟨refused, fun c file => ?_⟩)
    rw [(effect_ok (a := ())).mpr ((removeFile_pathOf tree valid).mpr ⟨⟨c, file⟩, rfl⟩)] at failed
    cases failed
  · obtain ⟨file, rfl⟩ := (removeFile_pathOf tree valid).mp (effect_ok.mp acted)
    exact Or.inr (Or.inr ⟨file, yields⟩)

theorem removeDir_cases (dir : v.disk.at? loc = some .dir) :
    (Refuses (removeDir (pathOf loc)) v ∧ (v.Sweeps → v.disk.isEmptyDir loc = false)) ∨
    v.disk.isEmptyDir loc = true ∧ Yields (removeDir (pathOf loc)) v () (v.disk.erase loc) := by
  rcases call_cases (.removeDir (pathOf loc)) (fun _ => effect (·.removeDir (pathOf loc))) v with
    ⟨befallen, message, failed⟩ | ⟨refused, e, failed⟩ | ⟨_, d, acted, yields⟩
  · exact Or.inl ⟨befallen.refuses, fun sweeps => (sweeps _ _ _ failed).elim⟩
  · refine Or.inl ⟨refused, fun _ => ?_⟩
    by_contra full
    rw [Bool.not_eq_false] at full
    rw [(effect_ok (a := ())).mpr ((removeDir_pathOf tree valid).mpr ⟨dir, full, rfl⟩)] at failed
    cases failed
  · obtain ⟨_, empty, rfl⟩ := (removeDir_pathOf tree valid).mp (effect_ok.mp acted)
    exact Or.inr ⟨empty, yields⟩

end

theorem rename_cases (tree : v.disk.IsTree) {source target : Location}
    (sourceValid : ∀ name ∈ source, Path.IsName name) (targetValid : ∀ name ∈ target, Path.IsName name)
    {c : Text.Bytes} (file : v.disk.at? source = some (.file c)) (different : source ≠ target) :
    Refuses (rename (pathOf source) (pathOf target)) v ∨
    v.disk.Takes target ∧ Yields (rename (pathOf source) (pathOf target)) v ()
      (v.disk.relocate source target) := by
  rcases call_cases (.rename (pathOf source) (pathOf target))
    (fun _ => effect (·.rename (pathOf source) (pathOf target))) v with
    ⟨befallen, _⟩ | ⟨refused, _⟩ | ⟨_, d, acted, yields⟩
  · exact Or.inl befallen.refuses
  · exact Or.inl refused
  · obtain ⟨takes, rfl⟩ := (rename_pathOf tree sourceValid targetValid file different).mp
      (effect_ok.mp acted)
    exact Or.inr ⟨takes, yields⟩

/-! ### Volumes that have stopped -/

/-- On a volume that has stopped, the computation does nothing but fail. -/
def Stalls (op : Op α) : Prop :=
  ∀ v : Volume, v.Halting → v.Stopped →
    ∃ e v', op v = (.error e, v') ∧ v'.disk = v.disk ∧ v'.hazards = v.hazards ∧ v'.Stopped

theorem call_stalls (c : Call) (act : Hazard → Disk → Except IoFault (α × Disk)) :
    Stalls (call c act) := by
  intro v halting stopped
  obtain ⟨message, failed⟩ := stopped c
  obtain ⟨e, v', result, disk, hazards, stays⟩ := call_fails c act failed
  exact ⟨e, v', result, disk, hazards, stays halting⟩

theorem Stalls.andThen {first : Op α} (stalls : Stalls first) (next : α → Op β) :
    Stalls (andThen first next) := by
  intro v halting stopped
  obtain ⟨e, v', result, rest⟩ := stalls v halting stopped
  exact ⟨e, v', andThen_error result next, rest⟩

end Volume

end Relocation
