import Mathlib.Data.Nat.Notation

/-! What becomes of the messages that `publish()` has handed to the client library. -/
namespace TickForge

/-- The accepted messages, at the broker or reported, and the counters the callback keeps. -/
structure DeliveryReports where
  /-- Accepted by `rd_kafka_producev`, outcome not known yet. -/
  inFlight : ℕ
  /-- Reports that wait for `rd_kafka_poll`; false where `msg->err` is set. -/
  reports : List Bool
  deliverySuccesses : ℕ
  deliveryFailures : ℕ
  deriving DecidableEq, Repr

namespace DeliveryReports

def empty : DeliveryReports := ⟨0, [], 0, 0⟩

/-- `rd_kafka_producev` with its result: only an accepted message gets a report. -/
def produce (d : DeliveryReports) (accepted : Bool) : DeliveryReports :=
  { d with inFlight := d.inFlight + accepted.toNat }

/-- The client library learns the outcome of one message. -/
def report (d : DeliveryReports) (delivered : Bool) : DeliveryReports :=
  { d with inFlight := d.inFlight - 1, reports := d.reports ++ [delivered] }

def deliveryReportTrampoline (d : DeliveryReports) (delivered : Bool) : DeliveryReports :=
  if delivered then { d with deliverySuccesses := d.deliverySuccesses + 1 }
  else { d with deliveryFailures := d.deliveryFailures + 1 }

/-- One callback out of `rd_kafka_poll` or `rd_kafka_flush`. -/
def poll (d : DeliveryReports) : DeliveryReports :=
  match d.reports with
  | [] => d
  | delivered :: rest => deliveryReportTrampoline { d with reports := rest } delivered

/-- `rd_kafka_outq_len`: what `rd_kafka_flush` waits to see at 0. -/
def outstanding (d : DeliveryReports) : ℕ := d.inFlight + d.reports.length

/-- Every message `rd_kafka_producev` has taken so far. -/
def accepted (d : DeliveryReports) : ℕ :=
  d.outstanding + d.deliverySuccesses + d.deliveryFailures

variable {d : DeliveryReports}

theorem accepted_produce (d : DeliveryReports) (b : Bool) :
    (d.produce b).accepted = d.accepted + b.toNat := by
  simp only [accepted, outstanding, produce]
  omega

theorem accepted_report (h : 0 < d.inFlight) (b : Bool) :
    (d.report b).accepted = d.accepted := by
  simp only [accepted, outstanding, report, List.length_append, List.length_singleton]
  omega

theorem accepted_poll (d : DeliveryReports) : d.poll.accepted = d.accepted := by
  unfold poll
  cases hr : d.reports with
  | nil => rfl
  | cons b rest =>
    cases b <;>
      simp only [deliveryReportTrampoline, accepted, outstanding, hr, List.length_cons] <;>
      simp <;> omega

end DeliveryReports
end TickForge
