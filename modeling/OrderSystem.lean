import OrderSystem.Foundations.Binary64
import OrderSystem.Foundations.Log
import OrderSystem.Foundations.Consumer
import OrderSystem.Foundations.Counting
import OrderSystem.Foundations.Interleaving
import OrderSystem.Foundations.Coupling
import OrderSystem.Foundations.Table
import OrderSystem.Foundations.KeyedQueues
import OrderSystem.Foundations.Dict
import OrderSystem.Foundations.Locks
import OrderSystem.Foundations.Logging
import OrderSystem.Foundations.Numbering
import OrderSystem.Foundations.Ranking
import OrderSystem.Foundations.Requeue
import OrderSystem.Foundations.Sends
import OrderSystem.Foundations.Sweep
import OrderSystem.Foundations.Trace
import OrderSystem.Foundations.Window
import OrderSystem.Common.Events
import OrderSystem.Partner.Database
import OrderSystem.Partner.SellerApi
import OrderSystem.Partner.Workers
import OrderSystem.Partner.RetryBudget
import OrderSystem.Partner.Admission
import OrderSystem.Partner.Ledger
import OrderSystem.Partner.Steps
import OrderSystem.Partner.Effects
import OrderSystem.Partner.SellerLedger
import OrderSystem.Partner.Applied
import OrderSystem.Partner.BatchStore
import OrderSystem.Partner.Capacity
import OrderSystem.Partner.ClaimAlone
import OrderSystem.Partner.InboxMode
import OrderSystem.Partner.Intake
import OrderSystem.Partner.Drain
import OrderSystem.Partner.Fencing
import OrderSystem.Partner.FindReady
import OrderSystem.Partner.Isolation
import OrderSystem.Partner.Issued
import OrderSystem.Partner.SellerCap
import OrderSystem.Partner.Permits
import OrderSystem.Partner.Limit
import OrderSystem.Partner.Reports
import OrderSystem.Partner.Unclaimed
import OrderSystem.Partner.Undisturbed
import OrderSystem.Partner.Recovery
import OrderSystem.Partner.RetryWindow
import OrderSystem.Orders.Database
import OrderSystem.Orders.Workers
import OrderSystem.Orders.Steps
import OrderSystem.Orders.Effects
import OrderSystem.Orders.Relay
import OrderSystem.Orders.Stream
import OrderSystem.Orders.Books
import OrderSystem.Orders.Confirmation
import OrderSystem.Orders.Cycle
import OrderSystem.Orders.Marking
import OrderSystem.Orders.Publishing
import OrderSystem.Pipeline.NoLoss
import OrderSystem.Pipeline.Agreement
import OrderSystem.Delivery.Database
import OrderSystem.Delivery.Workers
import OrderSystem.Delivery.Steps
import OrderSystem.Delivery.Effects
import OrderSystem.Pipeline.Completion
import OrderSystem.Delivery.Backlog
import OrderSystem.Pipeline.Backlog
import OrderSystem.Pipeline.Business
import OrderSystem.Pipeline.Purge
import OrderSystem.Pipeline.Convergence
import OrderSystem.Async.Workers
import OrderSystem.Async.Effects
import OrderSystem.Async.Order
import OrderSystem.Async.Heads
import OrderSystem.InPlace.Listener
import OrderSystem.InPlace.Effects
import OrderSystem.InPlace.Progress
import OrderSystem.Pipeline.Resending
import OrderSystem.Stock.Workers
import OrderSystem.Stock.Ledger
import OrderSystem.Pipeline.Reservation
import OrderSystem.Experiments.Alert
import OrderSystem.Pipeline.Watching
import OrderSystem.Async.Stale
import OrderSystem.Dispatch.Worker
import OrderSystem.Bucket.Attempts
import OrderSystem.Delivery.Quota
import OrderSystem.Delivery.Refusal
import OrderSystem.Delivery.Conservation
import OrderSystem.Dispatch.Backoff
import OrderSystem.Dispatch.Pass
import OrderSystem.Experiments.Safety
import OrderSystem.Experiments.Collected
import OrderSystem.Experiments.EffectChecker
import OrderSystem.Experiments.Observability
import OrderSystem.Experiments.Overlap
import OrderSystem.Experiments.RetryRate
import OrderSystem.MockPartner.Server
import OrderSystem.MockPartner.Durable
import OrderSystem.Notification.Consumers
import OrderSystem.Notification.History
import OrderSystem.Notification.Limiter
import OrderSystem.Notification.Priority
import OrderSystem.Notification.Rate
import OrderSystem.RetryLane.Listeners
import OrderSystem.RetryLane.Effects
import OrderSystem.RetryLane.Lossless
import OrderSystem.RetryLane.Marks
import OrderSystem.Stock.Relay
import OrderSystem.Stock.Publishing
