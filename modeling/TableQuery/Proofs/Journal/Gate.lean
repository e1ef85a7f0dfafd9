import TableQuery.Journal.Event

/-! What a gate lets through: the events of its least severity and of the graver ones, in their
order. -/
namespace TableQuery

theorem Severity.isLE_compare (a b : Severity) :
    (a.compare b).isLE = decide (a.level ≤ b.level) := by
  cases a <;> cases b <;> rfl

namespace Gate

theorem written_eq (g : Gate) (stream : Stream) (events : List Event) :
    g.written stream events =
      ((events.filter fun e => g.enabled && g.least.level ≤ e.severity.level).filter
        (·.severity.stream = stream)).map Event.line := by
  rw [written, List.filter_filter]
  congr 2
  funext e
  rw [admits, Severity.isLE_compare, Bool.and_comm]

def full : Gate := ⟨true, .trace⟩

theorem written_full (stream : Stream) (events : List Event) :
    full.written stream events =
      (events.filter (·.severity.stream = stream)).map Event.line := by
  have hpass : ∀ e ∈ events, (full.enabled && full.least.level ≤ e.severity.level) = true :=
    fun e _ => by simp [full, Severity.level]
  rw [written_eq, List.filter_eq_self.2 hpass]

end Gate
end TableQuery
